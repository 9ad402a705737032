import Mathlib.Logic.Function.Iterate
import Mathlib.Tactic.Common

/-!
# 終わるまで回る loop

`while` の 1 回分 `turn` は続けるか、結果を持って終わる。続けるたびに `work` が減る。
-/

namespace Redcurrant.Infra

universe u v w

inductive Turn (σ : Type u) (ρ : Type v)
  | again (s : σ)
  | stop (s : σ) (r : ρ)

variable {σ : Type u} {ρ : Type v}

def loop (turn : σ → Turn σ ρ) (work : σ → Nat)
    (hwork : ∀ {s s' : σ}, turn s = .again s' → work s' < work s) (s : σ) : σ × ρ :=
  match h : turn s with
  | .stop s' r => (s', r)
  | .again s' =>
    have : work s' < work s := hwork h
    loop turn work hwork s'
termination_by work s

variable {turn : σ → Turn σ ρ} {work : σ → Nat}
  {hwork : ∀ {s s' : σ}, turn s = .again s' → work s' < work s}

/-- **loop の規則。** 続ける回で保たれる `I` から終わる回が `Q` を導くなら、loop の結果は `Q`。 -/
theorem loop_rule {I : σ → Prop} {Q : σ → ρ → Prop}
    (hagain : ∀ {s s' : σ}, I s → turn s = .again s' → I s')
    (hstop : ∀ {s s' : σ} {r : ρ}, I s → turn s = .stop s' r → Q s' r) (s : σ) (h : I s) :
    Q (loop turn work hwork s).1 (loop turn work hwork s).2 := by
  rw [loop]
  split
  · rename_i heq
    exact hstop h heq
  rename_i s' heq
  have : work s' < work s := hwork heq
  exact loop_rule hagain hstop s' (hagain h heq)
termination_by work s

/-! ## 途中から続けられる parser

続きを待つ状態に続きを渡すのが合わせて渡すのと同じなら、列をどう切っても同じ所で終わる。 -/

variable {σ : Type u} {α : Type v} {ρ : Type w}

/-- 続きから読んでも、合わせて読むのと同じ -/
structure Resumable (parse : σ → List α → σ × Nat × Option ρ) : Prop where
  consumed_le : ∀ s l, (parse s l).2.1 ≤ l.length
  resume_more : ∀ {s x}, (parse s x).2.2 = none → ∀ y, parse s (x ++ y) =
    ((parse (parse s x).1 y).1, (parse s x).2.1 + (parse (parse s x).1 y).2.1,
      (parse (parse s x).1 y).2.2)
  resume_done : ∀ {s x}, (parse s x).2.2 ≠ none → ∀ y, parse s (x ++ y) = parse s x

section

variable {parse : σ → List α → σ × Nat × Option ρ} {s s' : σ} {p x t text extra : List α} {r : ρ}

variable (h : Resumable parse) (htext : parse s text = (s', text.length, some r))
include h htext

theorem Resumable.more_of_append (hp : p ++ t = text) (ht : t ≠ []) : (parse s p).2.2 = none := by
  by_contra hdone
  have heq := h.resume_done hdone t
  rw [hp, htext] at heq
  have hle : text.length ≤ p.length := by
    have := h.consumed_le s p
    rwa [← heq] at this
  rw [← hp, List.length_append] at hle
  have hpos := List.length_pos_iff.mpr ht
  omega

theorem Resumable.next_more (hp : p ++ x ++ t = text) (ht : t ≠ []) :
    (parse (parse s p).1 x).2.2 = none ∧ (parse (parse s p).1 x).1 = (parse s (p ++ x)).1 := by
  have hmore : (parse s p).2.2 = none := by
    refine h.more_of_append htext (t := x ++ t) (by rw [← List.append_assoc, hp]) ?_
    exact fun hnil => ht (List.append_eq_nil_iff.mp hnil).2
  have hnext := h.more_of_append htext hp ht
  rw [h.resume_more hmore x] at hnext ⊢
  exact ⟨hnext, rfl⟩

theorem Resumable.next_done (hp : p ++ x = text ++ extra) (hlt : p.length < text.length) :
    (parse (parse s p).1 x).2.2 = some r ∧ (parse (parse s p).1 x).1 = s' := by
  obtain ⟨t, ht⟩ := List.prefix_of_prefix_length_le ⟨x, hp⟩ (List.prefix_append text extra)
    (Nat.le_of_lt hlt)
  have htne : t ≠ [] := by
    rintro rfl
    rw [List.append_nil] at ht
    rw [ht] at hlt
    exact Nat.lt_irrefl _ hlt
  have hwhole : parse s (p ++ x) = (s', text.length, some r) := by
    rw [hp, h.resume_done (by rw [htext]; exact Option.some_ne_none r), htext]
  rw [h.resume_more (h.more_of_append htext ht htne) x] at hwhole
  obtain ⟨hs, hrest⟩ := Prod.mk.inj hwhole
  exact ⟨(Prod.mk.inj hrest).2, hs⟩

end

/-! ## 数え下ろし

`countdown` は record の数を 1 減らし、0 以下になった record を除く。 -/

variable {α : Type u} {n : Nat}

/-- record の中の数 -/
structure CounterOf (α : Type u) where
  get : α → Int
  set : α → Int → α
  get_set : ∀ x c, get (set x c) = c
  set_set : ∀ x c c', set (set x c) c' = set x c'

variable (c : CounterOf α)

/-- 数を 1 減らし、0 以下になれば除く -/
def countdown (slot : Option α) : Option α :=
  slot.bind fun x => if c.get x - 1 ≤ 0 then none else some (c.set x (c.get x - 1))

theorem iterate_countdown_none (n : Nat) : (countdown c)^[n] none = none := by
  induction n with
  | zero => rfl
  | succ n ih => exact ih

/-- **`n` 回の数え下ろし。** -/
theorem iterate_countdown_some (hn : 0 < n) (x : α) :
    (countdown c)^[n] (some x) = if c.get x ≤ n then none else some (c.set x (c.get x - n)) := by
  obtain ⟨m, rfl⟩ : ∃ m, n = m + 1 := ⟨n - 1, by omega⟩
  clear hn
  induction m generalizing x with
  | zero =>
    by_cases h : c.get x ≤ 1
    · rw [if_pos (by omega)]
      exact if_pos (by omega)
    · rw [if_neg (by omega)]
      exact if_neg (by omega)
  | succ m ih =>
    rw [Function.iterate_succ_apply]
    by_cases h : c.get x ≤ 1
    · have hfirst : countdown c (some x) = none := if_pos (by omega)
      rw [hfirst, iterate_countdown_none, if_pos (by omega)]
    have hfirst : countdown c (some x) = some (c.set x (c.get x - 1)) := if_neg (by omega)
    rw [hfirst, ih, c.get_set, c.set_set]
    by_cases hle : c.get x ≤ m + 2
    · rw [if_pos (by omega), if_pos (by omega)]
    rw [if_neg (by omega), if_neg (by omega)]
    congr 2
    omega

theorem iterate_countdown_eq_self (hn : 0 < n) {slot : Option α} :
    (countdown c)^[n] slot = slot ↔ slot = none := by
  cases slot with
  | none => simp [iterate_countdown_none]
  | some x =>
    refine iff_of_false (fun h => ?_) nofun
    rw [iterate_countdown_some c hn] at h
    split at h
    · cases h
    have := congrArg c.get (Option.some.inj h)
    rw [c.get_set] at this
    omega

theorem iterate_of_idem {f : α → α} (h : ∀ x, f (f x) = f x) (hn : 0 < n) (x : α) :
    f^[n] x = f x := by
  obtain ⟨m, rfl⟩ : ∃ m, n = m + 1 := ⟨n - 1, by omega⟩
  clear hn
  induction m with
  | zero => rfl
  | succ m ih => rw [Function.iterate_succ_apply', ih, h]

end Redcurrant.Infra
