import Mathlib.Data.List.DropRight
import Mathlib.Data.List.MinMax
import Mathlib.Data.List.Sort

/-!
# `ORDER BY` と `LIMIT`

行を値の小さい順に並べる（`orderBy`）。最大の 1 行は並べずに選ぶ（`maxRow`）。
-/

namespace Redcurrant.Infra

open List

universe u v

variable {V : Type u} {β : Type v} [LinearOrder β] {f : V → β} {l : List V}

/-- 値の最も大きい行。同じ値の行があれば、先の行。 -/
def maxRow (f : V → β) (l : List V) : Option V := l.argmax f

theorem maxRow_mem {a : V} (h : maxRow f l = some a) : a ∈ l := argmax_mem h

theorem le_of_maxRow {a b : V} (h : maxRow f l = some a) (hb : b ∈ l) : f b ≤ f a :=
  le_of_mem_argmax hb h

theorem maxRow_eq_none (h : maxRow f l = none) : l = [] := argmax_eq_none.mp h

/-- 値の小さい順に並べる -/
def orderBy (f : V → β) (l : List V) : List V := l.insertionSort fun a b => f a ≤ f b

theorem perm_orderBy (f : V → β) (l : List V) : (orderBy f l).Perm l := perm_insertionSort _ l

@[simp] theorem mem_orderBy {a : V} : a ∈ orderBy f l ↔ a ∈ l := (perm_orderBy f l).mem_iff

theorem pairwise_orderBy (f : V → β) (l : List V) :
    (orderBy f l).Pairwise fun a b => f a ≤ f b := by
  exact pairwise_insertionSort _ l

theorem orderBy_filter (p : V → Bool) (hf : ∀ a ∈ l, ∀ b ∈ l, f a = f b → a = b) :
    orderBy f (l.filter p) = (orderBy f l).filter p := by
  refine List.Perm.eq_of_pairwise ?_ (pairwise_orderBy f _) ((pairwise_orderBy f l).filter _) ?_
  · intro a b ha hb hab hba
    have ha' : a ∈ l := mem_of_mem_filter (mem_orderBy.mp ha)
    have hb' : b ∈ l := mem_orderBy.mp (mem_of_mem_filter hb)
    exact hf a ha' b hb' (le_antisymm hab hba)
  · exact (perm_orderBy f _).trans ((perm_orderBy f l).filter p).symm

theorem filter_notMem_take [DecidableEq V] (hn : l.Nodup) (k : Nat) :
    l.filter (fun a => decide (a ∉ l.take k)) = l.drop k := by
  have hd : List.Disjoint (l.take k) (l.drop k) := disjoint_take_drop hn le_rfl
  have htake : (l.take k).filter (fun a => decide (a ∉ l.take k)) = [] := by
    simp
  have hdrop : (l.drop k).filter (fun a => decide (a ∉ l.take k)) = l.drop k := by
    refine filter_eq_self.mpr fun a ha => ?_
    simpa using fun h => hd h ha
  calc l.filter (fun a => decide (a ∉ l.take k))
      = (l.take k ++ l.drop k).filter (fun a => decide (a ∉ l.take k)) := by
        rw [take_append_drop]
    _ = l.drop k := by rw [filter_append, htake, hdrop, nil_append]

/-- 先頭を除いた後の `p` の行が末尾の `n` 行になるのは、除いた行がすべて `p` のとき -/
theorem filter_drop_eq_rtake_iff {p : V → Bool} {n : Nat} (h : n ≤ (l.filter p).length) :
    (l.drop ((l.filter p).length - n)).filter p = (l.filter p).rtake n ↔
      ∀ a ∈ l.take ((l.filter p).length - n), p a = true := by
  have hk : (l.filter p).length - n ≤ l.length := (Nat.sub_le _ _).trans (length_filter_le p l)
  generalize hkdef : (l.filter p).length - n = k at hk ⊢
  have hsplit : l.filter p = (l.take k).filter p ++ (l.drop k).filter p := by
    rw [← filter_append, take_append_drop]
  rw [List.rtake, hkdef]
  constructor
  · intro he
    -- 長さを比べると、除いた `p` の行は `k` 行
    have hlen := congrArg List.length he
    have hsum := congrArg List.length hsplit
    rw [length_drop] at hlen
    rw [length_append] at hsum
    have hfull : ((l.take k).filter p).length = (l.take k).length := by
      rw [length_take]
      omega
    exact length_filter_eq_length_iff.mp hfull
  · intro hall
    have hself : (l.take k).filter p = l.take k := filter_eq_self.mpr hall
    have hlen : (l.take k).length = k := length_take_of_le hk
    rw [hsplit, hself, drop_left' hlen]

end Redcurrant.Infra
