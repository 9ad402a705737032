import Mathlib.Data.List.Induction

/-!
# list の list を作る

`metautils/lib/utils_containers.c`。要素は pointer で、`null` は飛ばされる。
-/

namespace Redcurrant.Metautils

open List

variable {α : Type}

/-! ## 同じ大きさに分ける -/

/-- `max` 個でない list の数 -/
def uneven (max : Nat) (lists : List (List α)) : Nat := lists.countP (·.length ≠ max)

theorem uneven_cons (max : Nat) (l : List α) (lists : List (List α)) :
    uneven max (l :: lists) = uneven max lists + if l.length ≠ max then 1 else 0 := by
  simp [uneven, countP_cons]

variable [DecidableEq α]

/-- `gslist_split` の loop の変数 -/
structure SplitState (α : Type) where
  i : Nat
  sublist : List α
  ret : List (List α)

def splitStep (null : α) (max : Nat) (s : SplitState α) (data : α) : SplitState α :=
  if data = null then s
  else if (s.i + 1) % max = 0 then ⟨s.i + 1, [], (data :: s.sublist) :: s.ret⟩
  else ⟨s.i + 1, data :: s.sublist, s.ret⟩

def gslistSplit (null : α) (list : List α) (max : Nat) : List (List α) :=
  let s := list.foldl (splitStep null max) ⟨1, [], []⟩
  if s.sublist = [] then s.ret else s.sublist :: s.ret

/-- 1 つを除いて `max` 個ずつで、その 1 つも 1 個以上 `max` 個以下 -/
structure SplitEvenly (list : List α) (max : Nat) (lists : List (List α)) : Prop where
  perm : lists.flatten.Perm list
  sizes : ∀ l ∈ lists, 1 ≤ l.length ∧ l.length ≤ max
  count : uneven max lists ≤ 1

/-- 最初の list だけが 1 つ少なく閉じられる -/
structure SplitInv (max : Nat) (done : List α) (s : SplitState α) : Prop where
  i : s.i = done.length + 1
  perm : (s.sublist ++ s.ret.flatten).Perm done
  sizes : ∀ l ∈ s.ret, 1 ≤ l.length ∧ l.length ≤ max
  size : s.sublist.length = if s.i < max then s.i - 1 else s.i % max
  count : uneven max s.ret = if max = 1 ∨ s.i < max then 0 else 1

variable {null data : α} {list done : List α} {max : Nat} {s : SplitState α}

theorem mod_succ_cases (hmax : 1 ≤ max) (i : Nat) :
    (i + 1) % max = 0 ∧ i % max + 1 = max ∨ (i + 1) % max = i % max + 1 ∧ i % max + 1 < max := by
  rw [← Nat.mod_add_mod]
  rcases Nat.lt_or_eq_of_le (Nat.mod_lt i hmax) with hlt | heq
  · exact .inr ⟨Nat.mod_eq_of_lt hlt, hlt⟩
  · exact .inl ⟨by rw [← Nat.succ_eq_add_one, heq, Nat.mod_self], heq⟩

theorem SplitInv.step (hmax : 1 ≤ max) (h : SplitInv max done s) (hdata : data ≠ null) :
    SplitInv max (done ++ [data]) (splitStep null max s data) := by
  obtain ⟨hi, hperm, hsizes, hsize, hcount⟩ := h
  have hperm' := (hperm.cons data).trans (perm_append_singleton data done).symm
  have hmod := mod_succ_cases hmax s.i
  have hlt : s.i < max → s.i % max = s.i := Nat.mod_eq_of_lt
  rw [splitStep, if_neg hdata]
  split
  · refine ⟨by simp [hi], by simpa using hperm', forall_mem_cons.mpr ⟨?_, hsizes⟩, ?_, ?_⟩
    · grind
    · grind
    · rw [uneven_cons]
      grind
  · exact ⟨by simp [hi], hperm', hsizes, by grind, by grind⟩

/-- **`gslist_split` が求められた形に分けるのは `max` が 1 か、1 つの list に収まるか、個数 + 1 が `max` で割り切れる
とき。** -/
theorem gslistSplit_iff (hmax : 1 ≤ max) (hnull : null ∉ list) :
    SplitEvenly list max (gslistSplit null list max) ↔
      max = 1 ∨ list.length < max ∨ (list.length + 1) % max = 0 := by
  have hinv : SplitInv max list (list.foldl (splitStep null max) ⟨1, [], []⟩) := by
    induction list using reverseRecOn with
    | nil =>
      refine ⟨rfl, .nil, nofun, ?_, ?_⟩
      · show 0 = if 1 < max then 0 else 1 % max
        grind
      · show 0 = if max = 1 ∨ 1 < max then 0 else 1
        grind
    | append_singleton done data ih =>
      rw [mem_append, not_or, mem_singleton] at hnull
      rw [foldl_append]
      exact (ih hnull.1).step hmax (Ne.symm hnull.2)
  rw [gslistSplit]
  generalize list.foldl (splitStep null max) ⟨1, [], []⟩ = s at hinv ⊢
  obtain ⟨hi, hperm, hsizes, hsize, hcount⟩ := hinv
  have hlt := Nat.mod_lt s.i hmax
  have hself : s.i = max → s.i % max = 0 := fun h => h ▸ Nat.mod_self _
  rw [← hi]
  split
  · rename_i hnil
    rw [hnil] at hperm hsize
    exact iff_of_true ⟨hperm, hsizes, by grind⟩ (by grind)
  · rename_i hne
    have hpos := length_pos_iff.mpr hne
    have hcount' := uneven_cons max s.sublist s.ret
    refine ⟨fun h => ?_, fun h => ⟨hperm, forall_mem_cons.mpr ⟨?_, hsizes⟩, ?_⟩⟩
    · have := h.count
      grind
    · grind
    · grind

theorem gslistSplit_five : SplitEvenly [1, 2, 3, 4, 5] 3 (gslistSplit 0 [1, 2, 3, 4, 5] 3) :=
  (gslistSplit_iff (by decide) (by decide)).mpr (by decide)

/-- 2 個ずつに分けた 2 個は 1 個の list が 2 つになる -/
theorem gslistSplit_two :
    gslistSplit 0 [1, 2] 2 = [[2], [1]] ∧ ¬ SplitEvenly [1, 2] 2 (gslistSplit 0 [1, 2] 2) :=
  ⟨rfl, fun h => absurd h.count (by decide)⟩

/-! ## 等しいものを集める -/

/-- 符号が全前順序を表す比較関数 -/
structure TotalPreorder (comparator : α → α → Int) : Prop where
  swap : ∀ a b, comparator a b < 0 ↔ 0 < comparator b a
  trans : ∀ a b c, comparator a b ≤ 0 → comparator b c ≤ 0 → comparator a c ≤ 0

/-- 先頭が `last_agregate` で、残りが `resL2` -/
def agregateStep (null : α) (comparator : α → α → Int) (groups : List (List α)) (data : α) :
    List (List α) :=
  if data = null then groups
  else match groups with
    | (last :: g) :: resL2 =>
      if comparator last data < 0 then [data] :: (last :: g) :: resL2
      else (data :: last :: g) :: resL2
    | _ => [data] :: groups

/-- `g_slist_sort` は安定な merge sort -/
def gSlistAgregate (null : α) (list : List α) (comparator : α → α → Int) : List (List α) :=
  ((list.mergeSort fun a b => comparator a b ≤ 0).foldl (agregateStep null comparator) []).reverse

/-- 等しい要素を集めた空でない組が順に並んでいる -/
structure Grouped (comparator : α → α → Int) (list : List α) (groups : List (List α)) : Prop where
  ne : [] ∉ groups
  perm : groups.flatten.Perm list
  equal : ∀ g ∈ groups, ∀ x ∈ g, ∀ y ∈ g, comparator x y = 0
  lt : groups.Pairwise fun g g' => ∀ x ∈ g, ∀ y ∈ g', comparator x y < 0

variable {comparator : α → α → Int} {groups : List (List α)}

/-- loop では組が逆に並ぶ -/
theorem Grouped.step (hc : TotalPreorder comparator) (h : Grouped (flip comparator) done groups)
    (hdata : data ≠ null) (hle : ∀ x ∈ done, comparator x data ≤ 0) :
    Grouped (flip comparator) (done ++ [data]) (agregateStep null comparator groups data) := by
  obtain ⟨hne, hperm, hequal, hlt⟩ := h
  have hmem : ∀ g ∈ groups, ∀ x ∈ g, comparator x data ≤ 0 := fun g hg x hx =>
    hle x (hperm.subset (mem_flatten_of_mem hg hx))
  replace hperm := (hperm.cons data).trans (perm_append_singleton data done).symm
  have hswap := hc.swap
  unfold flip at *
  rw [agregateStep.eq_def, if_neg hdata]
  split
  · rename_i last g resL2
    obtain ⟨hlast, hold⟩ := pairwise_cons.mp hlt
    have hle : ∀ g' ∈ (last :: g) :: resL2, ∀ x ∈ g', comparator x last ≤ 0 := by
      refine forall_mem_cons.mpr ⟨fun x hx => ?_, fun g' hg' x hx => ?_⟩
      · exact Int.le_of_eq (hequal _ mem_cons_self last mem_cons_self x hx)
      · exact Int.le_of_lt (hlast g' hg' last mem_cons_self x hx)
    split
    · refine ⟨by simpa using hne, hperm, forall_mem_cons.mpr ⟨?_, hequal⟩,
        pairwise_cons.mpr ⟨fun g' hg' x hx y hy => ?_, hlt⟩⟩
      · grind
      · have := hc.trans data y last
        grind
    · have hback : comparator data last ≤ 0 := by grind
      have hnew : ∀ x ∈ last :: g, comparator data x ≤ 0 := fun x hx =>
        hc.trans _ _ _ hback (Int.le_of_eq (hequal _ mem_cons_self x hx last mem_cons_self))
      refine ⟨by simpa using hne, hperm, forall_mem_cons.mpr
        ⟨?_, fun g' hg' => hequal g' (mem_cons_of_mem _ hg')⟩,
        pairwise_cons.mpr ⟨fun g' hg' x hx y hy => ?_, hold⟩⟩
      · grind
      · have := hc.trans last data y
        grind
  · have hgroups : groups = [] := by
      rcases groups with _ | ⟨_ | _, _⟩ <;> grind
    subst hgroups
    exact ⟨by simp, hperm, by grind, pairwise_singleton _ _⟩

/-- **`g_slist_agregate` は等しい要素を 1 つの空でない list に集め、比較の順に並べる。** -/
theorem gSlistAgregate_grouped (hc : TotalPreorder comparator) (hnull : null ∉ list) :
    Grouped comparator list (gSlistAgregate null list comparator) := by
  have hsorted : (list.mergeSort fun a b => comparator a b ≤ 0).Pairwise
      fun a b => comparator a b ≤ 0 := by
    refine (pairwise_mergeSort (fun a b c => ?_) (fun a b => ?_) list).imp of_decide_eq_true
    · simpa using hc.trans a b c
    · have := hc.swap a b
      simp only [Bool.or_eq_true, decide_eq_true_eq]
      omega
  have hperm := list.mergeSort_perm fun a b => comparator a b ≤ 0
  rw [← hperm.mem_iff] at hnull
  rw [gSlistAgregate]
  generalize list.mergeSort (fun a b => comparator a b ≤ 0) = sorted at hsorted hperm hnull ⊢
  have h : Grouped (flip comparator) sorted (sorted.foldl (agregateStep null comparator) []) := by
    clear hperm
    induction sorted using reverseRecOn with
    | nil => exact ⟨nofun, .nil, nofun, .nil⟩
    | append_singleton done data ih =>
      obtain ⟨hdone, -, hle⟩ := pairwise_append.mp hsorted
      rw [mem_append, not_or, mem_singleton] at hnull
      rw [foldl_append]
      exact (ih hdone hnull.1).step hc (Ne.symm hnull.2) fun x hx => hle x hx data mem_cons_self
  exact ⟨by simpa using h.ne, (reverse_perm _).flatten.trans (h.perm.trans hperm),
    fun g hg x hx y hy => h.equal g (mem_reverse.mp hg) y hy x hx,
    pairwise_reverse.mpr (h.lt.imp fun h x hx y hy => h y hy x hx)⟩

theorem gSlistAgregate_tens : Grouped (fun a b : Int => a / 10 - b / 10) [21, 11, 25]
      (gSlistAgregate 0 [21, 11, 25] fun a b => a / 10 - b / 10) :=
  gSlistAgregate_grouped ⟨fun a b => by omega, fun a b c => by omega⟩ (by decide)

end Redcurrant.Metautils
