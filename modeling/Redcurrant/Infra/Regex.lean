import Mathlib.Data.List.Infix
import Redcurrant.Infra.Cstring

/-!
# 正規表現の照合

文字の集合、連接、決まった回数の繰り返し。`rests` は残る列を後戻りの順に並べる。
-/

namespace Redcurrant.Infra

open List

/-! ## UTF-8 -/

/-- 続きの byte の下 6 bit -/
def utf8Tail (b : UInt8) : Option Nat :=
  if 128 ≤ b && b ≤ 191 then some (b.toNat - 128) else none

/-- UTF-8 を code point の列に直す。長すぎる形、surrogate、範囲の外は `none`。 -/
def utf8Decode : Bytes → Option (List Nat)
  | [] => some []
  | a :: s =>
    if a < 128 then (utf8Decode s).map (a.toNat :: ·)
    else if 194 ≤ a && a ≤ 223 then
      match s with
      | b :: s => do
        let x ← utf8Tail b
        (utf8Decode s).map (((a.toNat - 192) * 64 + x) :: ·)
      | _ => none
    else if 224 ≤ a && a ≤ 239 then
      match s with
      | b :: c :: s => do
        let x ← utf8Tail b
        let y ← utf8Tail c
        let p := ((a.toNat - 224) * 64 + x) * 64 + y
        if p < 2048 ∨ 55296 ≤ p ∧ p ≤ 57343 then none else (utf8Decode s).map (p :: ·)
      | _ => none
    else if 240 ≤ a && a ≤ 244 then
      match s with
      | b :: c :: d :: s => do
        let x ← utf8Tail b
        let y ← utf8Tail c
        let z ← utf8Tail d
        let p := (((a.toNat - 240) * 64 + x) * 64 + y) * 64 + z
        if p < 65536 ∨ 1114111 < p then none else (utf8Decode s).map (p :: ·)
      | _ => none
    else none

theorem utf8Decode_ascii {s : Bytes} (h : ∀ b ∈ s, b < 128) :
    utf8Decode s = some (s.map UInt8.toNat) := by
  induction s with
  | nil => rfl
  | cons b s ih =>
    unfold utf8Decode
    rw [if_pos (h b mem_cons_self), ih fun c hc => h c (mem_cons_of_mem _ hc)]
    rfl

/-! ## 正規表現 -/

/-- 文字の集合、連接、`lo` 回から `hi` 回の繰り返し -/
inductive Regex
  | chars (p : Nat → Bool)
  | seq (a b : Regex)
  | rep (a : Regex) (lo hi : Nat)

/-- 繰り返しの照合の後に残る列 -/
def repRests (f : List Nat → List (List Nat)) : Nat → Nat → List Nat → List (List Nat)
  | lo, 0, s => if lo = 0 then [s] else []
  | lo, hi + 1, s => (f s).flatMap (repRests f (lo - 1) hi) ++ if lo = 0 then [s] else []

def Regex.rests : Regex → List Nat → List (List Nat)
  | .chars p, s =>
    match s with
    | c :: s => if p c then [s] else []
    | [] => []
  | .seq a b, s => (a.rests s).flatMap b.rests
  | .rep a lo hi, s => repRests a.rests lo hi s

/-- 途中のどこかに照合する部分がある -/
def Regex.occurs (r : Regex) : List Nat → Bool
  | [] => !(r.rests []).isEmpty
  | c :: s => !(r.rests (c :: s)).isEmpty || r.occurs s

/-- byte の列から照合する部分を探す -/
def Regex.search (r : Regex) (s : Bytes) : Bool := (utf8Decode s).any r.occurs

section

variable {a b : Regex} {s t u : List Nat} {p : Nat → Bool}

theorem mem_rests_seq (ha : t ∈ a.rests s) (hb : u ∈ b.rests t) : u ∈ (a.seq b).rests s :=
  mem_flatMap.mpr ⟨t, ha, hb⟩

theorem mem_rests_chars {c : Nat} (h : p c = true) : s ∈ (Regex.chars p).rests (c :: s) := by
  change s ∈ if p c = true then [s] else []
  rw [if_pos h]
  exact mem_singleton_self s

theorem mem_rests_rep_succ {lo hi : Nat} (ha : t ∈ a.rests s)
    (hrest : u ∈ (a.rep (lo - 1) hi).rests t) : u ∈ (a.rep lo (hi + 1)).rests s :=
  mem_append_left _ (mem_flatMap.mpr ⟨t, ha, hrest⟩)

theorem mem_rests_rep_zero (hi : Nat) : s ∈ (a.rep 0 hi).rests s := by
  cases hi with
  | zero => exact mem_singleton_self s
  | succ hi => exact mem_append_right _ (mem_singleton_self s)

theorem mem_rests_rep_chars : ∀ {w : List Nat} {lo hi : Nat}, (∀ c ∈ w, p c = true) →
    lo ≤ w.length → w.length ≤ hi → s ∈ ((Regex.chars p).rep lo hi).rests (w ++ s)
  | [], lo, hi, _, hlo, _ => by
    obtain rfl : lo = 0 := Nat.le_zero.mp hlo
    exact mem_rests_rep_zero hi
  | c :: w, lo, hi + 1, hw, hlo, hhi => by
    have hhead : p c = true := hw c mem_cons_self
    have htail : ∀ d ∈ w, p d = true := fun d hd => hw d (mem_cons_of_mem _ hd)
    rw [length_cons] at hlo hhi
    exact mem_rests_rep_succ (mem_rests_chars hhead)
      (mem_rests_rep_chars htail (by omega) (by omega))

theorem search_of_rests {r : Regex} {s : Bytes} (hascii : ∀ b ∈ s, b < 128)
    (h : u ∈ r.rests (s.map UInt8.toNat)) : r.search s = true := by
  have hne : (r.rests (s.map UInt8.toNat)).isEmpty = false :=
    isEmpty_eq_false_iff.mpr (ne_nil_of_mem h)
  unfold Regex.search
  rw [utf8Decode_ascii hascii, Option.any_some]
  cases hs : s.map UInt8.toNat with
  | nil | cons c t =>
    rw [hs] at hne
    rw [Regex.occurs, hne]
    rfl

end

/-! ## `LIKE`

SQLite の `LIKE`。`%` は任意の列に、`_` は 1 文字に、ほかは大文字小文字を区別せずに合う。 -/

/-- `_` に合う文字の、先頭の byte の後を読み飛ばす（`SQLITE_SKIP_UTF8`） -/
def skipUtf8 (d : UInt8) (t : Bytes) : Bytes :=
  if 192 ≤ d then t.dropWhile fun b => b &&& 192 == 128 else t

def like : Bytes → Bytes → Bool
  | [], t => t.isEmpty
  | c :: p, t =>
    if c = 37 then t.tails.any (like p)
    else
      match t with
      | [] => false
      | d :: t => if c = 95 then like p (skipUtf8 d t) else toLower c == toLower d && like p t

def IsLetter (c : UInt8) : Prop := 65 ≤ c ∧ c ≤ 90 ∨ 97 ≤ c ∧ c ≤ 122

/-- `LIKE` の中で、自分自身とだけ合う byte -/
def LikePlain (c : UInt8) : Prop := c ≠ 37 ∧ c ≠ 95 ∧ ¬ IsLetter c

theorem exists_other_case {c : UInt8} (h : IsLetter c) : ∃ x, x ≠ c ∧ toLower c = toLower x := by
  rcases h with h | h
  · refine ⟨c + 32, ?_, ?_⟩ <;> grind [toLower]
  · refine ⟨c - 32, ?_, ?_⟩ <;> grind [toLower]

theorem eq_of_toLower {c d : UInt8} (hc : ¬ IsLetter c) (h : toLower c = toLower d) : c = d := by
  unfold toLower at h
  unfold IsLetter at hc
  grind

variable {c : UInt8} {p q t : Bytes}

theorem like_percent (h : like p t = true) (u : Bytes) : like (37 :: p) (u ++ t) = true := by
  have heq : like (37 :: p) (u ++ t) = (u ++ t).tails.any (like p) := by
    rfl
  rw [heq, any_eq_true]
  exact ⟨t, (mem_tails _ _).mpr (suffix_append u t), h⟩

theorem like_percents (t : Bytes) : like [37, 37] t = true := by
  have hnil : like [] [] = true := rfl
  have hone := like_percent (like_percent hnil []) t
  rwa [append_nil, append_nil] at hone

theorem like_cons_self (h : like p t = true) : like (c :: p) (c :: t) = true := by
  by_cases hc : c = 37
  · rw [hc]
    exact like_percent h [37]
  rw [like, if_neg hc]
  split
  · next h95 =>
    rw [h95]
    exact h
  · rw [h, Bool.and_true, beq_self_eq_true]

theorem like_append_self (h : like q t = true) : ∀ p : Bytes, like (p ++ q) (p ++ t) = true
  | [] => h
  | _ :: p => like_cons_self (like_append_self h p)

/-- 自分自身とだけ合うのでない byte にはほかに合う byte がある -/
theorem exists_like_other (hc : ¬ LikePlain c) (h : like p t = true) :
    ∃ x, x ≠ c ∧ like (c :: p) (x :: t) = true := by
  by_cases h37 : c = 37
  · exact ⟨97, by rw [h37]; decide, by rw [h37]; exact like_percent h [97]⟩
  by_cases h95 : c = 95
  · refine ⟨97, by rw [h95]; decide, ?_⟩
    rw [like, if_neg h37, if_pos h95]
    exact h
  have hletter : IsLetter c := not_not.mp fun hl => hc ⟨h37, h95, hl⟩
  obtain ⟨x, hne, hx⟩ := exists_other_case hletter
  refine ⟨x, hne, ?_⟩
  rw [like, if_neg h37, if_neg h95, hx, h, beq_self_eq_true, Bool.and_true]

theorem like_percents_iff : ∀ {p t : Bytes}, (∀ c ∈ p, LikePlain c) →
    (like (p ++ [37, 37]) t = true ↔ p <+: t)
  | [], t, _ => iff_of_true (like_percents t) nil_prefix
  | c :: p, t, h => by
    obtain ⟨h37, h95, hl⟩ := h c mem_cons_self
    cases t with
    | nil =>
      rw [cons_append, like, if_neg h37]
      simp
    | cons d t =>
      have ih := like_percents_iff (p := p) (t := t) fun x hx => h x (mem_cons_of_mem _ hx)
      rw [cons_append, like, if_neg h37, if_neg h95, Bool.and_eq_true, beq_iff_eq, ih,
        cons_prefix_cons]
      exact and_congr_left fun _ => ⟨eq_of_toLower hl, fun he => by rw [he]⟩

end Redcurrant.Infra
