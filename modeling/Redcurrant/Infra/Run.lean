import Mathlib.Tactic.Common

/-!
# step 関数の run

部分的な step 関数の実行（`exec`）と到達できる状態（`Reach`）。`Reach` は各 step への条件 `ok` を取る。
-/

namespace Redcurrant.Infra

universe u v

variable {σ : Type u} {ℓ : Type v} {step : σ → ℓ → Option σ} {ok : σ → ℓ → Prop}

/-- label の列を順に実行する。できない step があれば `none`。 -/
def exec (step : σ → ℓ → Option σ) : σ → List ℓ → Option σ
  | s, [] => some s
  | s, l :: ls => (step s l).bind fun s' => exec step s' ls

/-- どの step も条件 `ok` を満たす run で到達できる状態 -/
inductive Reach (step : σ → ℓ → Option σ) (ok : σ → ℓ → Prop) (init : σ) : σ → Prop
  | refl : Reach step ok init init
  | tail {s s' : σ} {l : ℓ} :
      Reach step ok init s → ok s l → step s l = some s' → Reach step ok init s'

/-- 条件なしに到達できる状態 -/
abbrev Reachable (step : σ → ℓ → Option σ) (init s : σ) : Prop :=
  Reach step (fun _ _ => True) init s

/-- **不変条件の規則。** 最初に成り立ち、1 step で保たれる性質は run で成り立つ。 -/
theorem Reach.invariant {init s : σ} {I : σ → Prop} (h : Reach step ok init s) (h0 : I init)
    (hstep : ∀ {a b : σ} {l : ℓ}, I a → ok a l → step a l = some b → I b) : I s := by
  induction h with
  | refl => exact h0
  | tail _ hok hs ih => exact hstep ih hok hs

theorem Reach.trans {a b c : σ} (hab : Reach step ok a b) (hbc : Reach step ok b c) :
    Reach step ok a c := by
  induction hbc with
  | refl => exact hab
  | tail _ hok hs ih => exact .tail ih hok hs

/-- label の列のすべての step が条件を満たすか -/
def execOk (step : σ → ℓ → Option σ) (ok : σ → ℓ → Prop) [∀ s l, Decidable (ok s l)] :
    σ → List ℓ → Bool
  | _, [] => true
  | s, l :: ls =>
    decide (ok s l) && match step s l with
      | some s' => execOk step ok s' ls
      | none => false

theorem reach_of_exec [∀ s l, Decidable (ok s l)] :
    ∀ (ls : List ℓ) {init s : σ}, execOk step ok init ls = true → exec step init ls = some s →
      Reach step ok init s
  | [], init, s, _, he => by
    cases he
    exact .refl
  | l :: ls, init, s, hok, he => by
    simp only [execOk, Bool.and_eq_true, decide_eq_true_eq] at hok
    simp only [exec] at he
    cases hs : step init l with
    | none => rw [hs] at he; cases he
    | some s' =>
      rw [hs] at he hok
      exact (Reach.tail .refl hok.1 hs).trans (reach_of_exec ls hok.2 he)

theorem reachable_of_exec : ∀ (ls : List ℓ) {init s : σ}, exec step init ls = some s →
    Reachable step init s
  | [], init, s, he => by
    cases he
    exact .refl
  | l :: ls, init, s, he => by
    simp only [exec] at he
    cases hs : step init l with
    | none => rw [hs] at he; cases he
    | some s' =>
      rw [hs] at he
      exact (Reach.tail .refl trivial hs).trans (reachable_of_exec ls he)

/-- 条件を満たさない step があれば、それまで満たしてきた最初の step がある -/
theorem first_of_exec [∀ s l, Decidable (ok s l)] :
    ∀ (ls : List ℓ) {init s : σ}, execOk step ok init ls = false → exec step init ls = some s →
      ∃ a b l, Reach step ok init a ∧ ¬ ok a l ∧ step a l = some b ∧ Reachable step b s
  | [], init, s, hok, _ => by cases hok
  | l :: ls, init, s, hok, he => by
    simp only [exec] at he
    cases hs : step init l with
    | none => rw [hs] at he; cases he
    | some s' =>
      rw [hs] at he
      by_cases hl : ok init l
      · simp only [execOk, hl, decide_true, Bool.true_and, hs] at hok
        obtain ⟨a, b, l', ha, hrest⟩ := first_of_exec ls hok he
        exact ⟨a, b, l', (Reach.tail .refl hl hs).trans ha, hrest⟩
      · exact ⟨init, s', l, .refl, hl, hs, reachable_of_exec ls he⟩

/-! ## step ごとに正確な条件 -/

/-- 列を実行する間の、どの状態でも成り立つ -/
def Throughout (step : σ → ℓ → Option σ) (P : σ → Prop) : σ → List ℓ → Prop
  | s, [] => P s
  | s, l :: ls => P s ∧ ∀ s', step s l = some s' → Throughout step P s' ls

/-- 列を実行する間の、どの step も条件を満たす -/
def EachStep (step : σ → ℓ → Option σ) (ok : σ → ℓ → Prop) : σ → List ℓ → Prop
  | _, [] => True
  | s, l :: ls => ∀ s', step s l = some s' → ok s l ∧ EachStep step ok s' ls

instance decidableEachStep [∀ s l, Decidable (ok s l)] :
    ∀ (s : σ) (ls : List ℓ), Decidable (EachStep step ok s ls)
  | _, [] => .isTrue trivial
  | s, l :: ls =>
    match hs : step s l with
    | none => .isTrue fun s' hs' => by rw [hs] at hs'; cases hs'
    | some s' =>
      have := decidableEachStep s' ls
      decidable_of_iff (ok s l ∧ EachStep step ok s' ls)
        ⟨fun h s'' hs'' => by rw [hs] at hs''; cases hs''; exact h, fun h => h s' hs⟩

/-- **正確な条件の規則。** `P` と共に保たれる `J` の下で、1 step で `P` が保たれることと条件が同値なら、run でも同値。 -/
theorem throughout_iff {P : σ → Prop} (J : σ → Prop)
    (hstep : ∀ {a b : σ} {l : ℓ}, J a → P a → step a l = some b → (P b ↔ ok a l) ∧ (P b → J b)) :
    ∀ (ls : List ℓ) {s : σ}, J s → P s → (Throughout step P s ls ↔ EachStep step ok s ls)
  | [], s, _, hs => ⟨fun _ => trivial, fun _ => hs⟩
  | l :: ls, s, hJ, hs => by
    rw [Throughout, and_iff_right hs]
    refine forall_congr' fun s' => forall_congr' fun hs' => ?_
    obtain ⟨hiff, hkeep⟩ := hstep hJ hs hs'
    constructor
    · intro h
      have hP : P s' := by
        cases ls with
        | nil => exact h
        | cons l' ls => exact h.1
      exact ⟨hiff.mp hP, (throughout_iff J hstep ls (hkeep hP) hP).mp h⟩
    · rintro ⟨hok, h⟩
      have hP := hiff.mpr hok
      exact (throughout_iff J hstep ls (hkeep hP) hP).mpr h

/-! ## 減るだけの量 -/

/-- 列のどの step の直前でも条件が成り立つ -/
def Along (step : σ → ℓ → σ) (P : σ → ℓ → Prop) : σ → List ℓ → Prop
  | _, [] => True
  | s, l :: ls => P s l ∧ Along step P (step s l) ls

theorem along_congr {step : σ → ℓ → σ} {P Q : σ → ℓ → Prop} (h : ∀ s l, P s l ↔ Q s l) :
    ∀ (ls : List ℓ) (s : σ), Along step P s ls ↔ Along step Q s ls
  | [], _ => .rfl
  | l :: ls, s => and_congr (h s l) (along_congr h ls (step s l))

theorem along_append {step : σ → ℓ → σ} {P : σ → ℓ → Prop} : ∀ (ls ls' : List ℓ) (s : σ),
      Along step P s (ls ++ ls') ↔ Along step P s ls ∧ Along step P (ls.foldl step s) ls'
  | [], _, _ => by rw [List.nil_append, Along, true_and, List.foldl_nil]
  | l :: ls, ls', s => by
    rw [List.cons_append, Along, Along, along_append ls ls', and_assoc, List.foldl_cons]

theorem foldl_le {ι : Type u} {step : σ → ℓ → σ} {m : σ → ι → Nat}
    (hle : ∀ s l i, m (step s l) i ≤ m s i) (ls : List ℓ) (s : σ) (i : ι) :
    m (ls.foldl step s) i ≤ m s i := by
  induction ls generalizing s with
  | nil => exact Nat.le_refl _
  | cons l ls ih => exact Nat.le_trans (ih (step s l)) (hle s l i)

/-- **減るだけの量の規則。** 量が増えない列で量が減らないのは、どの step でも減らないとき。 -/
theorem foldl_keeps_iff {ι : Type u} {step : σ → ℓ → σ} {m : σ → ι → Nat}
    (hle : ∀ s l i, m (step s l) i ≤ m s i) (ls : List ℓ) (s : σ) :
    (∀ i, m s i ≤ m (ls.foldl step s) i) ↔
      Along step (fun s l => ∀ i, m s i ≤ m (step s l) i) s ls := by
  induction ls generalizing s with
  | nil => simp [Along]
  | cons l ls ih =>
    rw [Along, ← ih (step s l)]
    constructor
    · intro h
      exact ⟨fun i => Nat.le_trans (h i) (foldl_le hle ls _ i),
        fun i => Nat.le_trans (hle s l i) (h i)⟩
    · rintro ⟨h, h'⟩ i
      exact Nat.le_trans (h i) (h' i)

/-! ## 必ず着く状態 -/

/-- 条件 `ok` を満たす step をどう選んでも、止まらずに有限回で `P` に着く -/
inductive Inevitable (step : σ → ℓ → Option σ) (ok : σ → ℓ → Prop) (P : σ → Prop) : σ → Prop
  | now {s : σ} : P s → Inevitable step ok P s
  | next {s : σ} : (∃ l s', ok s l ∧ step s l = some s') →
      (∀ l s', ok s l → step s l = some s' → Inevitable step ok P s') → Inevitable step ok P s

theorem not_inevitable_of_loop {P : σ → Prop} {s : σ} {l : ℓ} (hP : ¬ P s) (hok : ok s l)
    (hs : step s l = some s) : ¬ Inevitable step ok P s := by
  intro h
  induction h with
  | now h => exact hP h
  | next _ _ ih => exact ih l _ hok hs hP hok hs

end Redcurrant.Infra
