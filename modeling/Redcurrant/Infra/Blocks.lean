import Mathlib.Algebra.BigOperators.Group.List.Basic
import Mathlib.Data.List.Dedup
import Mathlib.Tactic.Linarith

/-!
# 整列した列の塊

整列した列を 1 度だけ読み、同じ値の塊ごとに検査する loop を列全体の条件で言い直す。
-/

namespace Redcurrant.Infra

open List

universe u v

variable {α : Type u}

/-! ## 塊 -/

section

variable {key : α → Int} {ok : List α → Prop} {m : Int} {g l : List α}

/-- どの塊も `ok` を満たし、値は `m` から隙間が無い -/
def Blocks (key : α → Int) (ok : List α → Prop) (m : Int) (q : List α) : Prop :=
  (∀ a ∈ q, ok (q.filter (key · = key a))) ∧ ∀ a ∈ q, key a = m ∨ ∃ b ∈ q, key b = key a - 1

theorem filter_key_eq_self (hg : ∀ a ∈ g, key a = m) : g.filter (key · = m) = g :=
  filter_eq_self.mpr fun a ha => decide_eq_true (hg a ha)

theorem filter_key_eq_nil {k : Int} (hg : ∀ a ∈ g, key a ≠ k) : g.filter (key · = k) = [] :=
  filter_eq_nil_iff.mpr fun a ha h => hg a ha (of_decide_eq_true h)

theorem blocks_single (hg : ∀ a ∈ g, key a = m) (hne : g ≠ []) : Blocks key ok m g ↔ ok g := by
  obtain ⟨a, ha⟩ := exists_mem_of_ne_nil g hne
  constructor
  · intro h
    have hok := h.1 a ha
    rwa [hg a ha, filter_key_eq_self hg] at hok
  · intro h
    refine ⟨fun b hb => ?_, fun b hb => Or.inl (hg b hb)⟩
    rwa [hg b hb, filter_key_eq_self hg]

section

variable {p : α} (hg : ∀ a ∈ g, key a = m) (hp : m < key p) (hl : ∀ b ∈ p :: l, key p ≤ key b)

include hg hp hl

theorem filter_first_block : (g ++ p :: l).filter (key · = m) = g := by
  rw [filter_append, filter_key_eq_self hg, filter_key_eq_nil, append_nil]
  intro b hb
  have := hl b hb
  omega

theorem filter_later_block {b : α} (hb : b ∈ p :: l) :
    (g ++ p :: l).filter (key · = key b) = (p :: l).filter (key · = key b) := by
  rw [filter_append, filter_key_eq_nil, nil_append]
  intro a ha
  have := hg a ha
  have := hl b hb
  omega

/-- **先頭の塊 `g` とその残り。** 残りは次の値から始まる。 -/
theorem blocks_append (hne : g ≠ []) :
    Blocks key ok m (g ++ p :: l) ↔ key p = m + 1 ∧ ok g ∧ Blocks key ok (key p) (p :: l) := by
  obtain ⟨a, ha⟩ := exists_mem_of_ne_nil g hne
  have hag := hg a ha
  constructor
  · rintro ⟨hok, hgap⟩
    have hnext : key p = m + 1 := by
      rcases hgap p (by simp) with h | ⟨b, hb, h⟩
      · omega
      rcases mem_append.mp hb with hb | hb
      · have := hg b hb
        omega
      · have := hl b hb
        omega
    refine ⟨hnext, ?_, fun b hb => ?_, fun b hb => ?_⟩
    · have h := hok a (mem_append_left _ ha)
      rwa [hag, filter_first_block hg hp hl] at h
    · have h := hok b (mem_append_right _ hb)
      rwa [filter_later_block hg hp hl hb] at h
    rcases hgap b (mem_append_right _ hb) with h | ⟨c, hc, h⟩
    · have := hl b hb
      omega
    rcases mem_append.mp hc with hc | hc
    · have := hg c hc
      exact Or.inl (by omega)
    · exact Or.inr ⟨c, hc, h⟩
  · rintro ⟨hnext, hokg, hok, hgap⟩
    refine ⟨fun b hb => ?_, fun b hb => ?_⟩
    · rcases mem_append.mp hb with hb | hb
      · rwa [hg b hb, filter_first_block hg hp hl]
      · rw [filter_later_block hg hp hl hb]
        exact hok b hb
    rcases mem_append.mp hb with hb | hb
    · exact Or.inl (hg b hb)
    rcases hgap b hb with h | ⟨c, hc, h⟩
    · exact Or.inr ⟨a, mem_append_left _ ha, by omega⟩
    · exact Or.inr ⟨c, mem_append_right _ hc, h⟩

end

theorem Blocks.mem_of_le {q : List α} (h : Blocks key ok m q) :
    ∀ (d : Nat) {a : α} {k : Int}, a ∈ q → m ≤ k → key a = k + d → ∃ b ∈ q, key b = k
  | 0, a, k, ha, _, he => ⟨a, ha, by omega⟩
  | d + 1, a, k, ha, hk, he => by
    rcases h.2 a ha with hm | ⟨b, hb, hpred⟩
    · omega
    · exact Blocks.mem_of_le h d hb hk (by omega)

theorem Blocks.mono {ok' : List α → Prop} {q q' : List α} (h : Blocks key ok m q) (hq : q.Perm q')
    (hok : ∀ a ∈ q, ok (q.filter (key · = key a)) → ok' (q'.filter (key · = key a))) :
    Blocks key ok' m q' := by
  refine ⟨fun a ha => ?_, fun a ha => ?_⟩
  · have ha := hq.mem_iff.mpr ha
    exact hok a ha (h.1 a ha)
  rcases h.2 a (hq.mem_iff.mpr ha) with he | ⟨b, hb, he⟩
  · exact Or.inl he
  · exact Or.inr ⟨b, hq.mem_iff.mp hb, he⟩

theorem blocks_map {β : Type v} {f : β → α} {q : List β} :
    Blocks key ok m (q.map f) ↔ Blocks (fun b => key (f b)) (fun g => ok (g.map f)) m q := by
  simp [Blocks, filter_map, Function.comp_def]

end

/-! ## 変わり目の和 -/

section

variable {κ : Type v} [LinearOrder κ] (pos : α → κ) (w : α → Int)

def changeSum : Option κ → List α → Int
  | _, [] => 0
  | last, a :: l => (if last = some (pos a) then 0 else w a) + changeSum (some (pos a)) l

variable {pos w} {f : κ → Int}

theorem add_changeSum : ∀ {l : List α} {x : κ}, (∀ a ∈ l, x ≤ pos a) →
    l.Pairwise (pos · ≤ pos ·) → (∀ a ∈ l, w a = f (pos a)) →
    f x + changeSum pos w (some x) l = ((x :: l.map pos).dedup.map f).sum
  | [], x, _, _, _ => by simp [changeSum]
  | a :: l, x, hx, hs, hw => by
    have hxa := hx a mem_cons_self
    have hs' := pairwise_cons.mp hs
    have ih := add_changeSum hs'.1 hs'.2 fun b hb => hw b (mem_cons_of_mem _ hb)
    rw [changeSum, map_cons]
    by_cases he : x = pos a
    · subst he
      rw [if_pos rfl, zero_add, ih,
        dedup_cons_of_mem (a := pos a) (l := pos a :: l.map pos) mem_cons_self]
    -- 値は増える一方なので、`x` はもう現れない
    have hnot : x ∉ pos a :: l.map pos := by
      rintro hmem
      rcases mem_cons.mp hmem with h | h
      · exact he h
      · obtain ⟨b, hb, rfl⟩ := mem_map.mp h
        exact he (le_antisymm hxa (hs'.1 b hb))
    rw [if_neg (by simpa using he), dedup_cons_of_notMem hnot, map_cons,
      sum_cons, ← ih, hw a mem_cons_self]

/-- **変わり目の和は相異なる値についての和。** -/
theorem changeSum_eq_sum {l : List α} (hs : l.Pairwise (pos · ≤ pos ·))
    (hw : ∀ a ∈ l, w a = f (pos a)) :
    changeSum pos w none l = ((l.map pos).dedup.map f).sum := by
  cases l with
  | nil => rfl
  | cons a l =>
    have hs' := pairwise_cons.mp hs
    rw [changeSum, hw a mem_cons_self]
    exact add_changeSum hs'.1 hs'.2 fun b hb => hw b (mem_cons_of_mem _ hb)

end

end Redcurrant.Infra
