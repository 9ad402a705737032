import Mathlib.Data.List.Induction
import Mathlib.Data.List.Pairwise
import Redcurrant.Infra.KeyedTable

/-!
# 行の並びとしての表

rowid の順の行の表。行の鍵は重ならず、鍵の無い行は衝突しない。
-/

namespace Redcurrant.Infra

open List

universe v w

variable {V : Type v} {K : Type w} {key : V → Option K}

/-- rowid の順に並んだ、鍵の重ならない行 -/
@[ext] structure RowTable (key : V → Option K) where
  rows : List V
  unique : rows.Pairwise fun a b => ¬ Clash key a b

namespace RowTable

variable (t : RowTable key) {a b x y : V} {p : V → Bool} {xs : List V}

def empty : RowTable key := ⟨[], .nil⟩

theorem eq_of_clash (ha : a ∈ t.rows) (hb : b ∈ t.rows) (h : Clash key a b) : a = b := by
  by_contra hne
  have hsymm : Std.Symm fun a b : V => ¬ Clash key a b := ⟨fun _ _ hc h => hc h.symm⟩
  exact t.unique.forall ha hb hne h

theorem eq_of_clash_left (ha : a ∈ t.rows) (hb : b ∈ t.rows) (h : Clash key x a)
    (h' : Clash key x b) : a = b :=
  t.eq_of_clash ha hb ⟨h.2 ▸ h.1, h.2.symm.trans h'.2⟩

/-! ## 削除 -/

/-- `DELETE FROM … WHERE p` -/
def delete (p : V → Bool) : RowTable key := ⟨t.rows.filter (!p ·), t.unique.filter _⟩

@[simp] theorem mem_delete : y ∈ (t.delete p).rows ↔ y ∈ t.rows ∧ p y = false := by
  simp [delete]

variable [DecidableEq K]

/-- 主鍵による削除。鍵の無い行では何も消えない。 -/
def erase (x : V) : RowTable key := t.delete fun y => Clash key x y

@[simp] theorem mem_erase : y ∈ (t.erase x).rows ↔ y ∈ t.rows ∧ ¬ Clash key x y := by
  simp [erase]

def eraseAll (xs : List V) : RowTable key := xs.foldl (fun t x => t.erase x) t

theorem mem_eraseAll : y ∈ (t.eraseAll xs).rows ↔ y ∈ t.rows ∧ ∀ x ∈ xs, ¬ Clash key x y := by
  induction xs generalizing t with
  | nil => simp [eraseAll]
  | cons x xs ih =>
    rw [forall_mem_cons, ← and_assoc, ← mem_erase]
    exact ih (t.erase x)

theorem mem_eraseAll_of_subset (hs : ∀ x ∈ xs, x ∈ t.rows) :
    y ∈ (t.eraseAll xs).rows ↔ y ∈ t.rows ∧ ¬ (y ∈ xs ∧ (key y).isSome) := by
  rw [mem_eraseAll]
  refine and_congr_right fun hy => ⟨fun h hm => h y hm.1 ⟨hm.2, rfl⟩, fun h x hx hc => ?_⟩
  have he : x = y := t.eq_of_clash (hs x hx) hy hc
  exact h ⟨he ▸ hx, he ▸ hc.1⟩

theorem rows_eraseAll (xs : List V) : (t.eraseAll xs).rows =
    t.rows.filter fun y => xs.all fun x => !decide (Clash key x y) := by
  induction xs generalizing t with
  | nil => simp [eraseAll]
  | cons x xs ih =>
    rw [show t.eraseAll (x :: xs) = (t.erase x).eraseAll xs from rfl, ih]
    simp [erase, delete, Bool.and_comm]

theorem rows_eraseAll_of_subset [DecidableEq V] (hk : ∀ y, (key y).isSome)
    (hs : ∀ x ∈ xs, x ∈ t.rows) :
    (t.eraseAll xs).rows = t.rows.filter fun y => decide (y ∉ xs) := by
  rw [rows_eraseAll]
  refine filter_congr fun y hy => ?_
  rw [Bool.eq_iff_iff, all_eq_true, decide_eq_true_eq]
  constructor
  · intro h hm
    have := h y hm
    simp [Clash, hk y] at this
  · intro h x hx
    have : ¬ Clash key x y := fun hc => h (t.eq_of_clash (hs x hx) hy hc ▸ hx)
    simpa using this

/-! ## 置き換え -/

def replaceInto (x : V) : RowTable key where
  rows := (t.erase x).rows ++ [x]
  unique := by
    refine pairwise_append.mpr ⟨(t.erase x).unique, pairwise_singleton _ _, ?_⟩
    intro a ha b hb hc
    rw [mem_singleton.mp hb] at hc
    exact ((mem_erase t).mp ha).2 hc.symm

@[simp] theorem mem_replaceInto :
    y ∈ (t.replaceInto x).rows ↔ (y ∈ t.rows ∧ ¬ Clash key x y) ∨ y = x := by
  simp [replaceInto]

theorem rows_replaceInto_of_fresh (h : ∀ y ∈ t.rows, ¬ Clash key x y) :
    (t.replaceInto x).rows = t.rows ++ [x] := by
  have : t.rows.filter (fun y => !decide (Clash key x y)) = t.rows := by
    refine filter_eq_self.mpr fun y hy => ?_
    simp [h y hy]
  simp [replaceInto, erase, delete, this]

def replaceAll (xs : List V) : RowTable key := xs.foldl (fun t x => t.replaceInto x) t

theorem mem_replaceAll (hy : y ∈ xs ∨ y ∈ t.rows) (h : ∀ x ∈ xs, Clash key x y → x = y) :
    y ∈ (t.replaceAll xs).rows := by
  induction xs generalizing t with
  | nil => exact hy.resolve_left not_mem_nil
  | cons x xs ih =>
    refine ih _ ?_ fun z hz => h z (mem_cons_of_mem _ hz)
    rw [mem_replaceInto]
    by_cases hc : Clash key x y
    · exact .inr (.inr (h x mem_cons_self hc).symm)
    rcases hy with hy | hy
    · rcases mem_cons.mp hy with he | hy
      · exact .inr (.inr he)
      · exact .inl hy
    · exact .inr (.inl ⟨hy, hc⟩)

theorem mem_of_replaceAll (hy : y ∈ (t.replaceAll xs).rows) : y ∈ xs ∨ y ∈ t.rows := by
  induction xs generalizing t with
  | nil => exact .inr hy
  | cons x xs ih =>
    rcases ih _ hy with h | h
    · exact .inl (mem_cons_of_mem _ h)
    rcases (mem_replaceInto t).mp h with ⟨h, -⟩ | rfl
    · exact .inr h
    · exact .inl mem_cons_self

theorem exists_mem_replaceAll (hx : x ∈ xs) (hk : (key x).isSome) :
    ∃ y ∈ xs, y ∈ (t.replaceAll xs).rows ∧ Clash key x y := by
  induction xs using List.reverseRecOn with
  | nil => cases hx
  | append_singleton xs z ih =>
    have hrun : t.replaceAll (xs ++ [z]) = (t.replaceAll xs).replaceInto z := by
      simp [replaceAll]
    rw [hrun]
    by_cases hc : Clash key x z
    · exact ⟨z, by simp, (mem_replaceInto _).mpr (.inr rfl), hc⟩
    have hx' : x ∈ xs := by
      rcases mem_append.mp hx with h | h
      · exact h
      · exact absurd ⟨hk, by rw [mem_singleton.mp h]⟩ hc
    obtain ⟨y, hy, hm, hxy⟩ := ih hx'
    refine ⟨y, mem_append_left _ hy, (mem_replaceInto _).mpr (.inl ⟨hm, fun hzy => ?_⟩), hxy⟩
    exact hc ⟨hk, hxy.2.trans hzy.2.symm⟩

end RowTable

end Redcurrant.Infra
