import Mathlib.Data.List.Basic

/-!
# 一意な鍵を持つ表

番号（rowid）から行への有限写像。行の鍵は重ならず、鍵の無い行は衝突しない。
-/

namespace Redcurrant.Infra

open Std List

universe u v w

variable {R : Type u} {V : Type v} {K : Type w} [Ord R] [TransOrd R] [LawfulEqOrd R]
variable {key : V → Option K}

def Clash (key : V → Option K) (a b : V) : Prop := (key a).isSome ∧ key a = key b

instance [DecidableEq K] (a b : V) : Decidable (Clash key a b) :=
  inferInstanceAs (Decidable (_ ∧ _))

theorem Clash.symm {a b : V} (h : Clash key a b) : Clash key b a := ⟨h.2 ▸ h.1, h.2.symm⟩

/-- 鍵の重ならない表 -/
structure KeyedTable (R : Type u) [Ord R] [TransOrd R] [LawfulEqOrd R] {V : Type v} {K : Type w}
    (key : V → Option K) where
  rows : ExtTreeMap R V compare
  unique : ∀ {r r' : R} {a b : V}, rows[r]? = some a → rows[r']? = some b → Clash key a b → r = r'

namespace KeyedTable

variable (t : KeyedTable R key) {r r' : R} {a b x : V}

def get? (r : R) : Option V := t.rows[r]?

@[ext] theorem ext {t t' : KeyedTable R key} (h : ∀ r, t.get? r = t'.get? r) : t = t' := by
  obtain ⟨rows, _⟩ := t
  obtain ⟨rows', _⟩ := t'
  have : rows = rows' := ExtTreeMap.ext_getElem? h
  subst this
  rfl

theorem unique' {t : KeyedTable R key} (ha : t.get? r = some a) (hb : t.get? r' = some b)
    (h : Clash key a b) : r = r' := t.unique ha hb h

def empty : KeyedTable R key := ⟨∅, by simp⟩

instance : Inhabited (KeyedTable R key) := ⟨empty⟩

@[simp] theorem get?_empty : (empty : KeyedTable R key).get? r = none := by
  simp [empty, get?]

def size : Nat := t.rows.size

/-! ## 操作 -/

def erase (r : R) : KeyedTable R key where
  rows := t.rows.erase r
  unique := by
    intro r₁ r₂ a b ha hb
    simp only [ExtTreeMap.getElem?_erase] at ha hb
    split at ha
    · cases ha
    split at hb
    · cases hb
    · exact t.unique ha hb

@[simp] theorem get?_erase [DecidableEq R] :
    (t.erase r).get? r' = if r' = r then none else t.get? r' := by
  simp [erase, get?, ExtTreeMap.getElem?_erase, @eq_comm _ r]

/-- 番号 `r` 以外の行は鍵で `x` と衝突しない -/
def Free (r : R) (x : V) : Prop := ∀ r' b, t.get? r' = some b → r' ≠ r → ¬Clash key x b

instance [DecidableEq R] [DecidableEq K] : Decidable (t.Free r x) :=
  decidable_of_iff (∀ p ∈ t.rows.toList, p.1 ≠ r → ¬Clash key x p.2) <| by
    simp [Free, get?]

def put (r : R) (x : V) (h : t.Free r x) : KeyedTable R key where
  rows := t.rows.insert r x
  unique := by
    intro r₁ r₂ a b ha hb hc
    have hne : ∀ {r' : R}, ¬compare r r' = .eq → r' ≠ r :=
      fun hn he => hn (by rw [he]; exact ReflCmp.compare_self)
    rw [ExtTreeMap.getElem?_insert] at ha hb
    split at ha <;> split at hb
    · next h1 h2 => exact (LawfulEqCmp.eq_of_compare h1).symm.trans (LawfulEqCmp.eq_of_compare h2)
    · next h1 h2 => cases ha; exact absurd hc (h r₂ b hb (hne h2))
    · next h1 h2 => cases hb; exact absurd hc.symm (h r₁ a ha (hne h1))
    · exact t.unique ha hb hc

@[simp] theorem get?_put [DecidableEq R] (h : t.Free r x) :
    (t.put r x h).get? r' = if r' = r then some x else t.get? r' := by
  simp [put, get?, ExtTreeMap.getElem?_insert, @eq_comm _ r]

/-- 行の挿入。番号か鍵が重なれば失敗する。 -/
def insert? [DecidableEq R] [DecidableEq K] (r : R) (x : V) : Option (KeyedTable R key) :=
  if t.get? r = none then if h : t.Free r x then some (t.put r x h) else none else none

/-- 行 `r` を番号 `r'`、内容 `x` に書き換える。番号か鍵が使われていれば失敗する。 -/
def move? [DecidableEq R] [DecidableEq K] (r r' : R) (x : V) : Option (KeyedTable R key) :=
  if r' = r ∨ t.get? r' = none then
    if h : (t.erase r).Free r' x then some ((t.erase r).put r' x h) else none
  else none

variable {t' t₁ : KeyedTable R key} {ups : List (R × V)}

theorem get?_of_insert? [DecidableEq R] [DecidableEq K] (h : t.insert? r x = some t') :
    t'.get? r' = if r' = r then some x else t.get? r' := by
  unfold insert? at h
  split at h
  · split at h
    · cases h
      exact t.get?_put _
    · cases h
  · cases h

theorem get?_of_move? [DecidableEq R] [DecidableEq K] {r1 : R} (h : t.move? r r1 x = some t') :
    t'.get? r' = if r' = r1 then some x else if r' = r then none else t.get? r' := by
  unfold move? at h
  split at h
  · split at h
    · cases h
      rw [get?_put, get?_erase]
    · cases h
  · cases h

def dropClashes [DecidableEq K] (x : V) : KeyedTable R key where
  rows := t.rows.filter fun _ b => !decide (Clash key x b)
  unique := by
    intro r₁ r₂ a b ha hb
    simp only [ExtTreeMap.getElem?_filter', Option.filter_eq_some_iff] at ha hb
    exact t.unique ha.1 hb.1

@[simp] theorem get?_dropClashes [DecidableEq K] :
    (t.dropClashes x).get? r = (t.get? r).filter fun b => !decide (Clash key x b) := by
  simp [dropClashes, get?]

theorem dropClashes_free [DecidableEq K] : (t.dropClashes x).Free r x := by
  intro r' b hb _ hc
  simp [hc] at hb

/-- 行の置き換え。番号か鍵の重なる行は取り除かれる。 -/
def replaceInto [DecidableEq K] (r : R) (x : V) : KeyedTable R key :=
  (t.dropClashes x).put r x t.dropClashes_free

theorem get?_replaceInto [DecidableEq R] [DecidableEq K] : (t.replaceInto r x).get? r' =
    if r' = r then some x else (t.get? r').filter fun b => !decide (Clash key x b) := by
  simp [replaceInto]

/-! ## 差分の適用 -/

variable [DecidableEq R] [DecidableEq K]

/-- `dels` の行を削除してから、`ups` の行を置き換える -/
def applyDiff (dels : List R) (ups : List (R × V)) : KeyedTable R key :=
  ups.foldl (fun t p => t.replaceInto p.1 p.2) (dels.foldl erase t)

omit [DecidableEq K] in
theorem get?_foldl_erase (dels : List R) :
    ∀ t : KeyedTable R key, (dels.foldl erase t).get? r = if r ∈ dels then none else t.get? r := by
  induction dels with
  | nil => simp
  | cons d dels ih =>
    intro t
    rw [foldl_cons, ih]
    by_cases hd : r = d <;> simp [hd]

theorem get?_foldl_replaceInto (ups : List (R × V)) :
    ∀ t : KeyedTable R key, (∀ p ∈ ups, t₁.get? p.1 = some p.2) →
      (ups.foldl (fun t p => t.replaceInto p.1 p.2) t).get? r =
        if r ∈ ups.map Prod.fst then t₁.get? r
        else (t.get? r).filter fun b => ups.all fun p => !decide (Clash key p.2 b) := by
  induction ups with
  | nil =>
    intro t _
    cases h0 : t.get? r <;> simp [h0, Option.filter_some]
  | cons p ups ih =>
    intro t h
    have hp := h p mem_cons_self
    have hups : ∀ q ∈ ups, t₁.get? q.1 = some q.2 := fun q hq => h q (mem_cons_of_mem _ hq)
    rw [foldl_cons, ih _ hups]
    by_cases hr : r ∈ ups.map Prod.fst
    · rw [if_pos hr, if_pos (by simp only [map_cons, mem_cons]; exact .inr hr)]
    rw [if_neg hr, get?_replaceInto]
    by_cases hrp : r = p.1
    · -- この後の行は番号が違う
      subst hrp
      rw [if_pos rfl, if_pos (by simp), hp, Option.filter_eq_some_iff.mpr]
      refine ⟨rfl, all_eq_true.mpr fun q hq => ?_⟩
      simp only [Bool.not_eq_eq_eq_not, Bool.not_true, decide_eq_false_iff_not]
      intro hc
      exact hr (mem_map.mpr ⟨q, hq, unique' (hups q hq) hp hc⟩)
    · rw [if_neg hrp, if_neg (by simp only [map_cons, mem_cons, not_or]; exact ⟨hrp, hr⟩)]
      simp

theorem get?_applyDiff (h : ∀ p ∈ ups, t₁.get? p.1 = some p.2) (dels : List R) (r : R) :
    (t.applyDiff dels ups).get? r =
      if r ∈ ups.map Prod.fst then t₁.get? r
      else if r ∈ dels then none
      else (t.get? r).filter fun b => ups.all fun p => !decide (Clash key p.2 b) := by
  rw [applyDiff, get?_foldl_replaceInto ups _ h, get?_foldl_erase]
  by_cases hr : r ∈ ups.map Prod.fst
  · rw [if_pos hr, if_pos hr]
  · by_cases hd : r ∈ dels <;> simp [hr, hd]

/-- **`P` の行が同じ表 `s₀` に `t₀` から `t₁` への差分を適用すると、`P` の行は `t₁` と同じ。** -/
theorem applyDiff_agree (t0 : KeyedTable R key) {s0 : KeyedTable R key} {P : V → Prop}
    {dels : List R} (hups : ∀ p ∈ ups, t₁.get? p.1 = some p.2)
    (hdels : ∀ r ∈ dels, r ∉ ups.map Prod.fst → t₁.get? r = none)
    (hP : ∀ a b, Clash key a b → P a → P b)
    (hs : ∀ r a, P a → (t0.get? r = some a ↔ s0.get? r = some a))
    (hkeep : ∀ r a, P a → t0.get? r = some a → r ∉ dels → r ∉ ups.map Prod.fst →
      t₁.get? r = some a ∨ t₁.get? r = none ∧ ∃ r' b, t₁.get? r' = some b ∧ Clash key b a)
    (hnew : ∀ r a, P a → t₁.get? r = some a → r ∉ ups.map Prod.fst → t0.get? r = some a) (r : R)
    (a : V) (ha : P a) : t₁.get? r = some a ↔ (s0.applyDiff dels ups).get? r = some a := by
  rw [get?_applyDiff s0 hups]
  by_cases hr : r ∈ ups.map Prod.fst
  · rw [if_pos hr]
  rw [if_neg hr]
  by_cases hd : r ∈ dels
  · rw [if_pos hd, hdels r hd hr]
  rw [if_neg hd, Option.filter_eq_some_iff, all_eq_true]
  constructor
  · intro h1
    refine ⟨(hs r a ha).mp (hnew r a ha h1 hr), fun p hp => ?_⟩
    simp only [Bool.not_eq_eq_eq_not, Bool.not_true, decide_eq_false_iff_not]
    intro hc
    exact hr (mem_map.mpr ⟨p, hp, unique' (hups p hp) h1 hc⟩)
  · rintro ⟨h0, hfree⟩
    have h0 := (hs r a ha).mpr h0
    rcases hkeep r a ha h0 hd hr with h1 | ⟨h1, r', b, hb, hc⟩
    · exact h1
    -- 鍵を譲られた行は差分に入っている
    by_cases hr' : r' ∈ ups.map Prod.fst
    · obtain ⟨p, hp, rfl⟩ := mem_map.mp hr'
      rw [hups p hp] at hb
      cases hb
      simpa [hc] using hfree p hp
    have h0' := hnew r' b (hP a b hc.symm ha) hb hr'
    rw [unique' h0' h0 hc, h1] at hb
    cases hb

/-- **`t₀` に差分を適用して `t₁` になるのは、差分に無い行がどれも、変わらないか、消えて鍵を `t₁` の行に譲ったとき
に限る。** -/
theorem applyDiff_eq_iff {t0 : KeyedTable R key} {dels : List R}
    (hups : ∀ p ∈ ups, t₁.get? p.1 = some p.2) :
    t0.applyDiff dels ups = t₁ ↔ ∀ r, r ∉ ups.map Prod.fst →
        if r ∈ dels then t₁.get? r = none
        else t₁.get? r = t0.get? r ∨
          t₁.get? r = none ∧ ∃ a, t0.get? r = some a ∧ ∃ r' b, t₁.get? r' = some b ∧ Clash key b a := by
  constructor
  · intro h r hr
    have hg := get?_applyDiff t0 hups dels r
    rw [h, if_neg hr] at hg
    by_cases hd : r ∈ dels
    · rw [if_pos hd] at hg ⊢
      exact hg
    rw [if_neg hd] at hg ⊢
    cases h0 : t0.get? r with
    | none => exact .inl (by rw [hg, h0]; rfl)
    | some a =>
      rw [h0, Option.filter_some] at hg
      split at hg
      · exact .inl hg
      rename_i hc
      rw [Bool.not_eq_true, all_eq_false] at hc
      obtain ⟨p, hp, hc⟩ := hc
      refine .inr ⟨hg, a, rfl, p.1, p.2, hups p hp, ?_⟩
      simpa using hc
  · intro h
    have hrest : ∀ r, r ∉ ups.map Prod.fst → r ∉ dels → t₁.get? r = t0.get? r ∨
        t₁.get? r = none ∧ ∃ a, t0.get? r = some a ∧
          ∃ r' b, t₁.get? r' = some b ∧ Clash key b a := by
      intro r hr hd
      have := h r hr
      rwa [if_neg hd] at this
    have hdels : ∀ r ∈ dels, r ∉ ups.map Prod.fst → t₁.get? r = none := by
      intro r hd hr
      have := h r hr
      rwa [if_pos hd] at this
    refine ext fun r => Option.ext fun a => ?_
    refine (applyDiff_agree t0 (P := fun _ => True) hups hdels (fun _ _ _ _ => trivial)
      (fun _ _ _ => Iff.rfl) ?_ ?_ r a trivial).symm
    · intro r a _ h0 hd hr
      rcases hrest r hr hd with h1 | ⟨h1, a', ha', hc⟩
      · exact .inl (h1.trans h0)
      rw [h0] at ha'
      cases ha'
      exact .inr ⟨h1, hc⟩
    · intro r a _ h1 hr
      have hd : r ∉ dels := fun hd => by rw [hdels r hd hr] at h1; cases h1
      rcases hrest r hr hd with h | ⟨h, -⟩
      · exact h ▸ h1
      · rw [h] at h1; cases h1

end KeyedTable

/-! ## 木を辿って別の木を更新する

`g_tree_foreach` で別の木を更新した結果を鍵ごとの式で与える。 -/

open ExtTreeMap

variable {κ : Type u} {ν : Type v} {ω : Type w} {cmp : κ → κ → Ordering}
variable [TransCmp cmp] [LawfulEqCmp cmp] (upd : Option ω → ν → ω)

/-- 鍵の値を今の値と与えられた値から作り直す -/
def updateAt (acc : ExtTreeMap κ ω cmp) (p : κ × ν) : ExtTreeMap κ ω cmp :=
  acc.insert p.1 (upd acc[p.1]? p.2)

theorem getElem?_foldl_update_of_notMem {k : κ} : ∀ (l : List (κ × ν)) (acc : ExtTreeMap κ ω cmp),
    (∀ p ∈ l, p.1 ≠ k) → (l.foldl (updateAt upd) acc)[k]? = acc[k]?
  | [], _, _ => rfl
  | p :: l, acc, h => by
    rw [foldl_cons, getElem?_foldl_update_of_notMem l _ fun q hq => h q (mem_cons_of_mem _ hq)]
    have hne : ¬cmp p.1 k = .eq := fun he => h p mem_cons_self (LawfulEqCmp.eq_of_compare he)
    rw [updateAt, ExtTreeMap.getElem?_insert, if_neg hne]

theorem getElem?_foldl_update {k : κ} {x : ν} : ∀ (l : List (κ × ν)) (acc : ExtTreeMap κ ω cmp),
    l.Pairwise (fun p q => p.1 ≠ q.1) → (k, x) ∈ l →
    (l.foldl (updateAt upd) acc)[k]? = some (upd acc[k]? x)
  | [], _, _, h => absurd h not_mem_nil
  | p :: l, acc, hd, h => by
    obtain ⟨hp, hd⟩ := pairwise_cons.mp hd
    rw [foldl_cons]
    rcases mem_cons.mp h with rfl | h
    · rw [getElem?_foldl_update_of_notMem upd l _ fun q hq => (hp q hq).symm, updateAt,
        getElem?_insert_self]
    · have hne : ¬cmp p.1 k = .eq := fun he => hp _ h (LawfulEqCmp.eq_of_compare he)
      rw [getElem?_foldl_update l _ hd h, updateAt, ExtTreeMap.getElem?_insert, if_neg hne]

theorem getElem?_foldl_set_iff {k : κ} {x : ν} {l : List (κ × ν)}
    (hd : l.Pairwise fun p q => p.1 ≠ q.1) :
    (l.foldl (updateAt fun _ v => v) (∅ : ExtTreeMap κ ν cmp))[k]? = some x ↔ (k, x) ∈ l := by
  refine ⟨fun h => ?_, getElem?_foldl_update (fun _ v => v) l ∅ hd⟩
  by_cases hk : ∃ x', (k, x') ∈ l
  · obtain ⟨x', hx'⟩ := hk
    rw [getElem?_foldl_update (fun _ v => v) l ∅ hd hx'] at h
    cases h
    exact hx'
  rw [getElem?_foldl_update_of_notMem _ l] at h
  · cases h
  · rintro ⟨k', x'⟩ hm rfl
    exact hk ⟨x', hm⟩

theorem pairwise_ne_toList (t : ExtTreeMap κ ν cmp) : t.toList.Pairwise (fun p q => p.1 ≠ q.1) := by
  refine t.distinct_keys_toList.imp fun {p q} hne he => ?_
  exact hne (by rw [he]; exact ReflCmp.compare_self)

/-- **木 `t` を辿って更新した木の、鍵ごとの値。** -/
theorem getElem?_foldl_update_toList (t : ExtTreeMap κ ν cmp) (acc : ExtTreeMap κ ω cmp) (k : κ) :
    (t.toList.foldl (updateAt upd) acc)[k]? = match t[k]? with
      | some x => some (upd acc[k]? x)
      | none => acc[k]? := by
  cases h : t[k]? with
  | some x =>
    exact getElem?_foldl_update upd _ _ (pairwise_ne_toList t)
      (mem_toList_iff_getElem?_eq_some.mpr h)
  | none =>
    refine getElem?_foldl_update_of_notMem upd _ _ fun ⟨k', x⟩ hp he => ?_
    have hp' := mem_toList_iff_getElem?_eq_some.mp hp
    rw [show k' = k from he, h] at hp'
    cases hp'

end Redcurrant.Infra
