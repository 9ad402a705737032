import Mathlib.Algebra.Ring.Nat
import Mathlib.Data.Finset.Card
import Mathlib.Data.List.Count
import Mathlib.Data.List.Nodup
import Mathlib.Data.List.Range

/-!
# 列の族の中の出現の数

番号が `n` より小さい列での値の出現の数（`occ`）と、値を持つ列の数（`holders`）。
-/

namespace Redcurrant.Infra

open List

universe u

section

variable {β : Type u}

/-- 1 つの番号の値を変える -/
def setAt (f : Nat → β) (p : Nat) (v : β) : Nat → β := fun q => if q = p then v else f q

@[simp] theorem setAt_same (f : Nat → β) (p : Nat) (v : β) : setAt f p v p = v := if_pos rfl

theorem setAt_of_ne (f : Nat → β) {p q : Nat} (v : β) (h : q ≠ p) : setAt f p v q = f q := if_neg h

end

theorem filterMap_ite_eq {γ : Type u} [DecidableEq γ] [BEq γ] [LawfulBEq γ] (q : Nat) (v : γ) :
    ∀ l : List γ, (l.filterMap fun w => if w = v then some q else none) =
      List.replicate (l.count v) q
  | [] => rfl
  | w :: l => by
    by_cases hw : w = v
    · simp [hw, filterMap_ite_eq q v l, replicate_succ]
    · simp [hw, filterMap_ite_eq q v l]

variable {α : Type u} [BEq α] [LawfulBEq α] {n p : Nat} {a : Nat → List α} {y : α}

def occ (n : Nat) (a : Nat → List α) (y : α) : Nat :=
  ((List.range n).map fun p => (a p).count y).sum

/-- `y` を持つ列の数 -/
def holders (n : Nat) (a : Nat → List α) (y : α) : Nat :=
  (List.range n).countP fun p => (a p).contains y

omit [LawfulBEq α] in
theorem occ_succ : occ (n + 1) a y = occ n a y + (a n).count y := by
  simp [occ, range_succ]

omit [LawfulBEq α] in
theorem holders_succ : holders (n + 1) a y = holders n a y + if (a n).contains y then 1 else 0 := by
  rw [holders, holders, range_succ, countP_append, countP_singleton]

omit [LawfulBEq α] in
theorem occ_congr {a' : Nat → List α} (h : ∀ p < n, a p = a' p) : occ n a y = occ n a' y := by
  refine congrArg List.sum (map_congr_left fun p hp => ?_)
  rw [h p (mem_range.mp hp)]

omit [LawfulBEq α] in
theorem occ_setAt (hp : p < n) (v : List α) :
    occ n (setAt a p v) y + (a p).count y = occ n a y + v.count y := by
  induction n with
  | zero => omega
  | succ n ih =>
    rw [occ_succ, occ_succ]
    rcases Nat.lt_succ_iff_lt_or_eq.mp hp with hlt | rfl
    · rw [setAt_of_ne a v (by omega)]
      omega
    have hrest : occ p (setAt a p v) y = occ p a y :=
      occ_congr fun q hq => setAt_of_ne a v (by omega)
    rw [setAt_same]
    omega

theorem occ_eq_holders (h : ∀ p < n, (a p).Nodup) : occ n a y = holders n a y := by
  induction n with
  | zero => rfl
  | succ n ih =>
    rw [occ_succ, holders_succ, ih fun p hp => h p (by omega)]
    congr 1
    split
    · rename_i hmem
      exact count_eq_one_of_mem (h n (by omega)) (contains_iff_mem.mp hmem)
    · rename_i hmem
      exact count_eq_zero.mpr fun hy => hmem (contains_iff_mem.mpr hy)

theorem occ_eq_zero_iff : occ n a y = 0 ↔ ∀ p < n, y ∉ a p := by
  induction n with
  | zero => simp [occ]
  | succ n ih =>
    rw [occ_succ, Nat.add_eq_zero_iff, ih, count_eq_zero]
    constructor
    · rintro ⟨h, hn⟩ p hp
      rcases Nat.lt_succ_iff_lt_or_eq.mp hp with hlt | rfl
      · exact h p hlt
      · exact hn
    · intro h
      exact ⟨fun p hp => h p (by omega), h n (by omega)⟩

/-! ## 組の代表への併合

重ならない組の要素を組の先頭に置き換える（`mergeGroups`）。 -/

variable {α : Type u} [DecidableEq α] {new x y : α} {olds g : List α} {gs : List (List α)}

def mergeInto (new : α) (olds : List α) (x : α) : α := if olds.contains x then new else x

def mergeGroups : List (List α) → α → α
  | [], x => x
  | [] :: gs, x => mergeGroups gs x
  | (new :: olds) :: gs, x => mergeGroups gs (mergeInto new olds x)

theorem mergeInto_eq_iff : mergeInto new olds x = mergeInto new olds y ↔
    x = y ∨ x ∈ new :: olds ∧ y ∈ new :: olds := by
  by_cases hx : x ∈ olds <;> by_cases hy : y ∈ olds <;> grind [mergeInto]

theorem mergeInto_mem_iff (hd : List.Disjoint (new :: olds) g) :
    mergeInto new olds x ∈ g ↔ x ∈ g := by
  by_cases hx : x ∈ olds
  · have hnew : new ∉ g := hd List.mem_cons_self
    have hxg : x ∉ g := hd (List.mem_cons_of_mem _ hx)
    simp [mergeInto, hx, hnew, hxg]
  · simp [mergeInto, hx]

theorem mergeGroups_eq_iff (hd : gs.Pairwise List.Disjoint) :
    mergeGroups gs x = mergeGroups gs y ↔ x = y ∨ ∃ g ∈ gs, x ∈ g ∧ y ∈ g := by
  induction gs generalizing x y with
  | nil => simp [mergeGroups]
  | cons g gs ih =>
    obtain ⟨hg, hgs⟩ := List.pairwise_cons.mp hd
    cases g with
    | nil => simpa [mergeGroups] using ih hgs
    | cons new olds =>
      have hmem : (∃ g ∈ gs, mergeInto new olds x ∈ g ∧ mergeInto new olds y ∈ g) ↔
          ∃ g ∈ gs, x ∈ g ∧ y ∈ g := by
        refine exists_congr fun g' => and_congr_right fun hg' => ?_
        rw [mergeInto_mem_iff (hg g' hg'), mergeInto_mem_iff (hg g' hg')]
      rw [mergeGroups, mergeGroups, ih hgs, hmem, mergeInto_eq_iff, or_assoc]
      simp

theorem card_le_image_mergeGroups_iff (hd : gs.Pairwise List.Disjoint) (s : Finset α) :
    s.card ≤ (s.image (mergeGroups gs)).card ↔
      ∀ x ∈ s, ∀ y ∈ s, x ≠ y → ∀ g ∈ gs, x ∈ g → y ∉ g := by
  have hcard : s.card ≤ (s.image (mergeGroups gs)).card ↔
      (s.image (mergeGroups gs)).card = s.card :=
    ⟨fun h => le_antisymm Finset.card_image_le h, fun h => h.ge⟩
  rw [hcard, Finset.card_image_iff]
  constructor
  · intro hinj x hx y hy hne g hg hxg hyg
    exact hne (hinj hx hy ((mergeGroups_eq_iff hd).mpr (.inr ⟨g, hg, hxg, hyg⟩)))
  · intro hsep x hx y hy he
    by_contra hne
    rcases (mergeGroups_eq_iff hd).mp he with h | ⟨g, hg, hxg, hyg⟩
    · exact hne h
    · exact hsep x hx y hy hne g hg hxg hyg

end Redcurrant.Infra
