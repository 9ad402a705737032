import Mathlib.Algebra.Order.BigOperators.Group.List
import Mathlib.Algebra.Order.Ring.Nat

/-!
# 区切りで並べた列の切り詰め

列を区切り `c` で並べ、また分ける。1 つ 1 つは `m` まで、全体は `n` まで切り詰められる。
-/

namespace Redcurrant.Infra

open List

universe u

variable {α : Type u} [BEq α] [LawfulBEq α] {c : α} {m n : Nat} {ls : List (List α)}

/-- 1 つずつ切り詰めて並べ、全体を切り詰める -/
def cutJoin (c : α) (m n : Nat) (ls : List (List α)) : List α :=
  ([c].intercalate (ls.map (take m))).take n

/-- 1 つ 1 つが `m` に、並べた全体が `n` に収まる -/
def Fits (c : α) (m n : Nat) (ls : List (List α)) : Prop :=
  (∀ l ∈ ls, l.length ≤ m) ∧ ([c].intercalate ls).length ≤ n

omit [LawfulBEq α] in
theorem length_splitOn (c : α) (xs : List α) : (xs.splitOn c).length = xs.count c + 1 := by
  induction xs with
  | nil => rfl
  | cons x xs ih =>
    rw [splitOn_eq_splitOnP] at ih ⊢
    rw [splitOnP_cons_eq_if_modifyHead, count_cons]
    split
    · rw [length_cons, ih]
    · rw [length_modifyHead, ih]

omit [BEq α] [LawfulBEq α] in
theorem length_intercalate_add_one (c : α) (h : ls ≠ []) :
    ([c].intercalate ls).length + 1 = (ls.map length).sum + ls.length := by
  induction ls with
  | nil => exact absurd rfl h
  | cons l ls ih =>
    cases ls with
    | nil => simp
    | cons l' ls =>
      have ih := ih (cons_ne_nil _ _)
      rw [intercalate_cons_cons, length_append, length_append, length_singleton,
        map_cons, sum_cons, length_cons]
      omega

variable {xs l s : List α}

theorem length_le_of_mem_splitOn (h : l ∈ xs.splitOn c) : l.length ≤ xs.length := by
  have hsum := length_intercalate_add_one c (ne_nil_of_mem h)
  rw [intercalate_splitOn] at hsum
  have hpos := length_pos_of_mem h
  have hle := single_le_sum (by simp) _ (mem_map_of_mem (f := length) h)
  omega

theorem splitOn_cutJoin (hfree : ∀ l ∈ ls, c ∉ l) (hne : ls ≠ []) (h : Fits c m n ls) :
    (cutJoin c m n ls).splitOn c = ls := by
  have htake : ls.map (take m) = ls := by
    rw [map_congr_left fun l hl => take_of_length_le (h.1 l hl), map_id']
  rw [cutJoin, htake, take_of_length_le h.2, splitOn_intercalate c hfree hne]

theorem length_parts_le (hfree : ∀ l ∈ ls, c ∉ l) (hne : ls ≠ []) :
    ((cutJoin c m n ls).splitOn c).length ≤ ls.length := by
  have hfree' : ∀ l ∈ ls.map (take m), c ∉ l := by
    intro l hl hc
    obtain ⟨l0, hl0, rfl⟩ := mem_map.mp hl
    exact hfree l0 hl0 (mem_of_mem_take hc)
  have hwhole := length_splitOn c ([c].intercalate (ls.map (take m)))
  rw [splitOn_intercalate c hfree' (by simpa using hne), length_map] at hwhole
  rw [length_splitOn, hwhole]
  exact Nat.add_le_add_right ((take_sublist _ _).count_le c) 1

omit [BEq α] [LawfulBEq α] in
theorem sum_take_le (m : Nat) : ∀ ls : List (List α),
    ((ls.map (take m)).map length).sum ≤ (ls.map length).sum
  | [] => Nat.le_refl _
  | l :: ls => by
    simp only [map_cons, sum_cons, length_take]
    exact Nat.add_le_add (Nat.min_le_right _ _) (sum_take_le m ls)

omit [BEq α] [LawfulBEq α] in
theorem length_le_of_sum_take : ∀ {ls : List (List α)},
    (ls.map length).sum ≤ ((ls.map (take m)).map length).sum →
    ∀ l ∈ ls, l.length ≤ m
  | [], _ => by simp
  | l :: ls, h => by
    have hrest := sum_take_le m ls
    simp only [map_cons, sum_cons, length_take] at h
    refine forall_mem_cons.mpr ⟨by omega, length_le_of_sum_take ?_⟩
    omega

/-- **分けて元の列が並び順を除いて戻れば、どれも切り詰められていない。** -/
theorem fits_of_perm (hne : ls ≠ []) (h : ((cutJoin c m n ls).splitOn c).Perm ls) :
    Fits c m n ls := by
  have hparts : (cutJoin c m n ls).splitOn c ≠ [] := fun he => hne (nil_perm.mp (he ▸ h))
  have hlen : (cutJoin c m n ls).length = ([c].intercalate ls).length := by
    have h1 := length_intercalate_add_one c hparts
    have h2 := length_intercalate_add_one c hne
    rw [intercalate_splitOn, (h.map length).sum_eq, h.length_eq] at h1
    omega
  have hcut : (cutJoin c m n ls).length ≤ ([c].intercalate (ls.map (take m))).length :=
    (take_sublist _ _).length_le
  have h3 := length_intercalate_add_one c (by simpa using hne : ls.map (take m) ≠ [])
  have h4 := length_intercalate_add_one c hne
  rw [length_map] at h3
  refine ⟨length_le_of_sum_take (by omega), ?_⟩
  rw [← hlen, cutJoin, length_take]
  exact Nat.min_le_left _ _

/-- **重なりの無い列が分けて集合として戻るのは収まるとき。** -/
theorem mem_splitOn_cutJoin_iff (hfree : ∀ l ∈ ls, c ∉ l) (hne : ls ≠ []) (hnodup : ls.Nodup) :
    (∀ l, l ∈ (cutJoin c m n ls).splitOn c ↔ l ∈ ls) ↔ Fits c m n ls := by
  constructor
  · intro h
    have hsub : ls.Subperm ((cutJoin c m n ls).splitOn c) :=
      subperm_of_subset hnodup fun l hl => (h l).mpr hl
    exact fits_of_perm hne (hsub.perm_of_length_le (length_parts_le hfree hne)).symm
  · intro h l
    rw [splitOn_cutJoin hfree hne h]

omit [BEq α] [LawfulBEq α] in
theorem Fits.perm {ls' : List (List α)} (h : Fits c m n ls) (hp : ls'.Perm ls) :
    Fits c m n ls' := by
  refine ⟨fun l hl => h.1 l (hp.mem_iff.mp hl), ?_⟩
  by_cases hne : ls = []
  · subst hne
    rw [perm_nil.mp hp]
    exact h.2
  have hne' : ls' ≠ [] := fun he => hne (nil_perm.mp (he ▸ hp))
  have h1 := length_intercalate_add_one c hne
  have h2 := length_intercalate_add_one c hne'
  rw [(hp.map length).sum_eq, hp.length_eq] at h2
  have := h.2
  omega

/-! ## 並べた列の中身 -/

omit [BEq α] [LawfulBEq α] in
theorem mem_intercalate_iff {x : α} (hx : x ≠ c) : x ∈ [c].intercalate ls ↔ ∃ l ∈ ls, x ∈ l := by
  induction ls with
  | nil => simp
  | cons l ls ih =>
    cases ls with
    | nil => simp
    | cons l' ls =>
      rw [intercalate_cons_cons, mem_append, ih]
      simp [hx]

omit [BEq α] [LawfulBEq α] in
theorem notMem_dropLast_intercalate {x : α} (hx : x ≠ c) (ls : List (List α)) (l : List α) :
    x ∉ ([c].intercalate (ls ++ [l])).dropLast ↔ (∀ l' ∈ ls, x ∉ l') ∧ x ∉ l.dropLast := by
  induction ls with
  | nil => simp
  | cons l' ls ih =>
    have htail : ∀ rest : List α, x ∈ (c :: rest).dropLast ↔ x ∈ rest.dropLast := by
      intro rest
      cases rest with
      | nil => simp
      | cons y rest => rw [dropLast_cons_cons, mem_cons, or_iff_right hx]
    rw [cons_append, intercalate_cons_of_ne_nil (by simp), append_assoc,
      singleton_append, dropLast_append_of_ne_nil (cons_ne_nil _ _),
      mem_append, not_or, htail, ih, forall_mem_cons, and_assoc]

theorem sep_notMem_of_mem_splitOn (h : l ∈ xs.splitOn c) : c ∉ l := by
  induction xs generalizing l with
  | nil =>
    rw [splitOn_nil, mem_singleton] at h
    rw [h]
    exact not_mem_nil
  | cons x xs ih =>
    rw [splitOn_eq_splitOnP] at ih h
    rw [splitOnP_cons_eq_if_modifyHead] at h
    split at h
    · rcases mem_cons.mp h with rfl | h
      · exact not_mem_nil
      · exact ih h
    rename_i hx
    cases hsplit : xs.splitOnP (· == c) with
    | nil => exact absurd hsplit (splitOnP_ne_nil _ _)
    | cons l' rest =>
      rw [hsplit] at h ih
      rcases mem_cons.mp h with rfl | h
      · have hne : c ≠ x := fun he => hx (beq_iff_eq.mpr he.symm)
        exact fun hc => (mem_cons.mp hc).elim hne (ih mem_cons_self)
      · exact ih (mem_cons_of_mem _ h)

/-! ## 数に上限のある分け方 -/

/-- `g_strsplit`。空の列は 0 個に分かれ、`max = 0` なら上限は無い。 -/
def strsplit (c : α) (max : Nat) (s : List α) : List (List α) :=
  if s.isEmpty then []
  else if max = 0 ∨ (s.splitOn c).length ≤ max then s.splitOn c
  else (s.splitOn c).take (max - 1) ++ [[c].intercalate ((s.splitOn c).drop (max - 1))]

omit [LawfulBEq α] in
theorem strsplit_eq_splitOn {max : Nat} (hs : s ≠ []) (hmax : max = 0 ∨ (s.splitOn c).length ≤ max) :
    strsplit c max s = s.splitOn c := by
  rw [strsplit, if_neg (by simpa using hs), if_pos hmax]

theorem strsplit_intercalate {max : Nat} (hfree : ∀ l ∈ ls, c ∉ l) (hne : ls ≠ [])
    (hs : [c].intercalate ls ≠ []) (hmax : max = 0 ∨ ls.length ≤ max) :
    strsplit c max ([c].intercalate ls) = ls := by
  have hsplit := splitOn_intercalate c hfree hne
  rw [strsplit_eq_splitOn hs (by rwa [hsplit]), hsplit]

theorem mem_strsplit_iff {x : α} (hx : x ≠ c) : (∃ l ∈ strsplit c 0 s, x ∈ l) ↔ x ∈ s := by
  by_cases hs : s = []
  · subst hs
    simp [strsplit]
  · rw [strsplit_eq_splitOn hs (.inl rfl), ← mem_intercalate_iff hx, intercalate_splitOn]

theorem sep_notMem_of_mem_strsplit (h : l ∈ strsplit c 0 s) : c ∉ l := by
  by_cases hs : s = []
  · subst hs
    simp [strsplit] at h
  · rw [strsplit_eq_splitOn hs (.inl rfl)] at h
    exact sep_notMem_of_mem_splitOn h

end Redcurrant.Infra
