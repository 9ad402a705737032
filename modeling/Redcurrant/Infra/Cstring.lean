import Mathlib.Algebra.Ring.Nat
import Mathlib.Algebra.Ring.Int.Defs
import Mathlib.Data.List.TakeWhile

/-!
# C の文字列と十進数

C の文字列は終端の NUL を除いた byte の列で、buffer からは `cstr` で最初の NUL までを切り出す。
-/

namespace Redcurrant.Infra

open List

/-- 終端の NUL を除いた byte の列 -/
abbrev Bytes := List UInt8

/-- 文字列リテラルの byte 列。ASCII だけに使う。 -/
def ascii (s : String) : Bytes := s.toList.map fun c => UInt8.ofNat c.toNat

/-- buffer を C の文字列として読む -/
def cstr (b : Bytes) : Bytes := b.takeWhile (· ≠ 0)

/-- `strcmp` の符号 -/
def strcmp (a b : Bytes) : Ordering := compare a b

/-- `g_str_has_prefix` -/
def hasPrefix (s pre : Bytes) : Bool := pre.isPrefixOf s

/-- `g_ascii_strcasecmp` が同じとみなす文字 -/
def toLower (b : UInt8) : UInt8 := if 65 ≤ b && b ≤ 90 then b + 32 else b

/-- `g_ascii_strcasecmp` が 0 を返すこと -/
def strcaseeq (a b : Bytes) : Bool := a.map toLower == b.map toLower

theorem length_eq_of_strcaseeq {a b : Bytes} (h : strcaseeq a b = true) : a.length = b.length := by
  have h := congrArg List.length (beq_iff_eq.mp h)
  simpa using h

/-- `strchr` で見つけた文字の前と後ろ -/
def splitAtChar (c : UInt8) (s : Bytes) : Option (Bytes × Bytes) :=
  if c ∈ s then some (s.takeWhile (· ≠ c), (s.dropWhile (· ≠ c)).tail) else none

/-- `strrchr(s, c) + 1` -/
def afterLast (c : UInt8) (s : Bytes) : Option Bytes :=
  if c ∈ s then some (s.reverse.takeWhile (· ≠ c)).reverse else none

/-- 最後の文字 `c` の前と後ろ -/
def splitAtLast (c : UInt8) (s : Bytes) : Option (Bytes × Bytes) :=
  if s.contains c then
    some ((s.reverse.dropWhile (· != c)).tail.reverse, (s.reverse.takeWhile (· != c)).reverse)
  else none

/-! ## 終端の NUL -/

variable {s a b rest : Bytes} {c : UInt8}

theorem cstr_eq_self (h : 0 ∉ s) : cstr s = s := by
  refine takeWhile_eq_self_iff.mpr fun b hb => ?_
  have : b ≠ 0 := fun he => h (he ▸ hb)
  simpa using this

theorem zero_notMem_cstr (s : Bytes) : 0 ∉ cstr s := by
  intro h
  have := mem_takeWhile_imp h
  simp at this

@[simp] theorem cstr_cstr (s : Bytes) : cstr (cstr s) = cstr s := cstr_eq_self (zero_notMem_cstr s)

theorem afterLast_append (h : c ∉ b) : afterLast c (a ++ c :: b) = some b := by
  have hpos : ∀ x ∈ b.reverse, decide (x ≠ c) = true := by
    intro x hx
    have : x ≠ c := fun he => h (he ▸ mem_reverse.mp hx)
    simpa using this
  rw [afterLast, reverse_append, reverse_cons, append_assoc, takeWhile_append_of_pos hpos]
  simp

theorem splitAtLast_append (h : c ∉ b) : splitAtLast c (a ++ c :: b) = some (a, b) := by
  have hpos : ∀ x ∈ b.reverse, (x != c) = true := by
    intro x hx
    have : x ≠ c := fun he => h (he ▸ mem_reverse.mp hx)
    simpa using this
  rw [splitAtLast, reverse_append, reverse_cons, append_assoc,
    takeWhile_append_of_pos hpos, dropWhile_append_of_pos hpos]
  simp

theorem splitAtChar_append (h : c ∉ a) : splitAtChar c (a ++ c :: b) = some (a, b) := by
  have hpos : ∀ x ∈ a, decide (x ≠ c) = true := by
    intro x hx
    have : x ≠ c := fun he => h (he ▸ hx)
    simpa using this
  rw [splitAtChar, takeWhile_append_of_pos hpos, dropWhile_append_of_pos hpos]
  simp

theorem splitAtChar_eq_none : splitAtChar c s = none ↔ c ∉ s := by
  simp [splitAtChar]

theorem splitAtLast_eq_none : splitAtLast c s = none ↔ c ∉ s := by
  simp [splitAtLast]

theorem eq_append_of_splitAtChar (h : splitAtChar c s = some (a, b)) : s = a ++ c :: b ∧ c ∉ a := by
  have hmem : c ∈ s := by
    by_contra hmem
    rw [splitAtChar_eq_none.mpr hmem] at h
    cases h
  obtain ⟨a', b', rfl, ha'⟩ := eq_append_cons_of_mem hmem
  rw [splitAtChar_append ha'] at h
  cases h
  exact ⟨rfl, ha'⟩

theorem eq_append_of_splitAtLast (h : splitAtLast c s = some (a, b)) : s = a ++ c :: b ∧ c ∉ b := by
  have hmem : c ∈ s := by
    by_contra hmem
    rw [splitAtLast_eq_none.mpr hmem] at h
    cases h
  obtain ⟨a', b', hs, ha'⟩ := eq_append_cons_of_mem (mem_reverse.mpr hmem)
  have hs : s = b'.reverse ++ c :: a'.reverse := by
    rw [← reverse_reverse s, hs]
    simp
  rw [hs, splitAtLast_append (by simpa using ha')] at h
  cases h
  exact ⟨hs, by simpa using ha'⟩

/-! ## 数の読み取り -/

def isSpace (b : UInt8) : Bool := b == 32 || (9 ≤ b && b ≤ 13)

def isDigit (b : UInt8) : Bool := 48 ≤ b && b ≤ 57

/-- 先頭から続く数字を十進数として読む -/
def digitsVal (s : Bytes) : Nat :=
  (s.takeWhile isDigit).foldl (fun n b => 10 * n + (b.toNat - 48)) 0

/-- 基数 10 の `strtoll`。範囲を超えた値は端に張り付く。 -/
def strtoll (s : Bytes) : Int :=
  match s.dropWhile isSpace with
  | [] => 0
  | b :: t =>
    if b = 45 then max (-(digitsVal t : Int)) (-2 ^ 63)
    else if b = 43 then min (digitsVal t : Int) (2 ^ 63 - 1)
    else min (digitsVal (b :: t) : Int) (2 ^ 63 - 1)

/-- `strtoll` が読み残した部分（`endptr`）。数字が 1 つも無ければ `none`。 -/
def strtollEnd (s : Bytes) : Option Bytes :=
  let t := s.dropWhile isSpace
  let t := if t.head? = some 45 ∨ t.head? = some 43 then t.tail else t
  if (t.head?.map isDigit).getD false then some (t.dropWhile isDigit) else none

/-- `strtoll` が範囲を超えて `errno` を立てること -/
def strtollErange (s : Bytes) : Bool :=
  match s.dropWhile isSpace with
  | [] => false
  | b :: t =>
    if b = 45 then decide (2 ^ 63 < digitsVal t)
    else if b = 43 then decide (2 ^ 63 ≤ digitsVal t)
    else decide (2 ^ 63 ≤ digitsVal (b :: t))

/-- `int` への変換。2 の補数で上位を捨てる。 -/
def toInt32 (z : Int) : Int := Int.bmod z (2 ^ 32)

/-- `gint64` への変換 -/
def toInt64 (z : Int) : Int := Int.bmod z (2 ^ 64)

/-- `atoi`。glibc では `(int) strtol(s, NULL, 10)`。 -/
def atoi (s : Bytes) : Int := toInt32 (strtoll s)

/-! ## 数の書き出し -/

/-- `%llu` -/
def decNat (n : Nat) : Bytes := (Nat.toDigits 10 n).map fun c => UInt8.ofNat c.toNat

/-- `%lld` -/
def decInt (z : Int) : Bytes := if z < 0 then 45 :: decNat z.natAbs else decNat z.natAbs

/-- `%010lld`。負でない値にだけ使う。 -/
def decPad (n : Nat) : Bytes := List.replicate (10 - (decNat n).length) 48 ++ decNat n

/-! ## 書き出した数字 -/

theorem digitByte_of_isDigit {c : Char} (h : c.isDigit) :
    isDigit (UInt8.ofNat c.toNat) = true ∧ (UInt8.ofNat c.toNat).toNat = c.toNat := by
  have hc : 48 ≤ c.toNat ∧ c.toNat ≤ 57 := by
    simp only [Char.isDigit, Bool.and_eq_true, decide_eq_true_eq, ge_iff_le,
      UInt32.le_iff_toNat_le] at h
    exact h
  have hn : (UInt8.ofNat c.toNat).toNat = c.toNat :=
    UInt8.toNat_ofNat_of_lt' (show c.toNat < 256 by omega)
  refine ⟨?_, hn⟩
  simp only [isDigit, Bool.and_eq_true, decide_eq_true_eq, UInt8.le_iff_toNat_le, hn]
  exact hc

theorem decNat_isDigit (n : Nat) : ∀ b ∈ decNat n, isDigit b = true := by
  intro b hb
  obtain ⟨c, hc, rfl⟩ := mem_map.mp hb
  exact (digitByte_of_isDigit (Nat.isDigit_of_mem_toDigits (by omega) (by omega) hc)).1

theorem decNat_ne_nil (n : Nat) : decNat n ≠ [] := by
  simp [decNat]

theorem decInt_byte {z : Int} {b : UInt8} (h : b ∈ decInt z) : b = 45 ∨ isDigit b = true := by
  unfold decInt at h
  split at h
  · rcases mem_cons.mp h with rfl | h
    · exact .inl rfl
    · exact .inr (decNat_isDigit _ b h)
  · exact .inr (decNat_isDigit _ b h)

theorem decPad_isDigit (n : Nat) : ∀ b ∈ decPad n, isDigit b = true := by
  intro b hb
  rcases mem_append.mp hb with hb | hb
  · rw [eq_of_mem_replicate hb]; decide
  · exact decNat_isDigit n b hb

theorem decPad_no_minus (n : Nat) : 45 ∉ decPad n := by
  intro h
  have := decPad_isDigit n 45 h
  revert this
  decide

theorem digitsVal_append {ds : Bytes} (hds : ∀ b ∈ ds, isDigit b = true)
    (hrest : ∀ b ∈ rest.head?, isDigit b = false) :
    digitsVal (ds ++ rest) = ds.foldl (fun n b => 10 * n + (b.toNat - 48)) 0 := by
  unfold digitsVal
  rw [takeWhile_append_of_pos hds]
  have hnil : rest.takeWhile isDigit = [] := by
    cases rest with
    | nil => rfl
    | cons b t => simp [hrest b rfl]
  rw [hnil, append_nil]

theorem foldl_digitBytes : ∀ (l : List Char) (init : Nat), (∀ c ∈ l, c.isDigit) →
    (l.map fun c => UInt8.ofNat c.toNat).foldl (fun n b => 10 * n + (b.toNat - 48)) init
      = Nat.ofDigitChars 10 l init
  | [], _, _ => by simp
  | c :: l, init, h => by
    have hc := (digitByte_of_isDigit (h c (by simp))).2
    rw [map_cons, foldl_cons, hc, foldl_digitBytes l _ (fun x hx => h x (by simp [hx]))]
    rfl

theorem foldl_decNat (n : Nat) : (decNat n).foldl (fun n b => 10 * n + (b.toNat - 48)) 0 = n := by
  rw [decNat, foldl_digitBytes _ _ fun c hc => Nat.isDigit_of_mem_toDigits (by omega) (by omega) hc]
  exact Nat.ofDigitChars_ten_toDigits

theorem foldl_digits_lt : ∀ {l : Bytes} (n : Nat), (∀ b ∈ l, isDigit b = true) →
    l.foldl (fun n b => 10 * n + (b.toNat - 48)) n < (n + 1) * 10 ^ l.length
  | [], n, _ => by simp
  | b :: l, n, h => by
    have hb := h b mem_cons_self
    rw [isDigit, Bool.and_eq_true, decide_eq_true_eq, decide_eq_true_eq] at hb
    have h57 : b.toNat ≤ 57 := UInt8.le_iff_toNat_le.mp hb.2
    have hrest := foldl_digits_lt (10 * n + (b.toNat - 48)) fun c hc => h c (mem_cons_of_mem _ hc)
    rw [length_cons, Nat.pow_succ', ← Nat.mul_assoc]
    exact hrest.trans_le (Nat.mul_le_mul_right _ (by omega))

theorem foldl_replicate_zero (k : Nat) :
    (List.replicate k (48 : UInt8)).foldl (fun n b => 10 * n + (b.toNat - 48)) 0 = 0 := by
  induction k with
  | zero => rfl
  | succ k ih => exact ih

theorem digitsVal_decNat (n : Nat) (hrest : ∀ b ∈ rest.head?, isDigit b = false) :
    digitsVal (decNat n ++ rest) = n := by
  rw [digitsVal_append (decNat_isDigit n) hrest, foldl_decNat]

theorem digitsVal_decPad (n : Nat) : digitsVal (decPad n) = n := by
  have h : digitsVal (decPad n ++ []) = _ := digitsVal_append (decPad_isDigit n) (by simp)
  rw [append_nil] at h
  rw [h, decPad, foldl_append, foldl_replicate_zero, foldl_decNat]

/-! ## 読み戻し -/

theorem sign_of_isDigit {b : UInt8} (h : isDigit b = true) : isSpace b = false ∧ b ≠ 45 ∧ b ≠ 43 := by
  have hb : 48 ≤ b.toNat ∧ b.toNat ≤ 57 := by
    simpa [isDigit, UInt8.le_iff_toNat_le] using h
  refine ⟨?_, fun he => by rw [he] at hb; simp at hb, fun he => by rw [he] at hb; simp at hb⟩
  simp only [isSpace, Bool.or_eq_false_iff, beq_eq_false_iff_ne, ne_eq, Bool.and_eq_false_iff,
    decide_eq_false_iff_not, UInt8.le_iff_toNat_le]
  refine ⟨fun he => ?_, Or.inr (by simp; omega)⟩
  rw [he] at hb; simp at hb

theorem strtoll_of_digit {b : UInt8} {t : Bytes} (h : isDigit b = true) :
    strtoll (b :: t) = min (digitsVal (b :: t) : Int) (2 ^ 63 - 1) := by
  obtain ⟨hsp, h45, h43⟩ := sign_of_isDigit h
  simp [strtoll, hsp, if_neg h45, if_neg h43]

theorem strtoll_decNat {n : Nat} (hn : (n : Int) < 2 ^ 63)
    (hrest : ∀ b ∈ rest.head?, isDigit b = false) : strtoll (decNat n ++ rest) = n := by
  cases hd : decNat n with
  | nil => exact absurd hd (decNat_ne_nil n)
  | cons b t =>
    have hb : isDigit b = true := decNat_isDigit n b (by rw [hd]; simp)
    rw [cons_append, strtoll_of_digit hb, ← cons_append, ← hd, digitsVal_decNat n hrest]
    omega

/-- **64 bit の値は `%lld` で書いて読み戻せる。** -/
theorem strtoll_decInt {z : Int} (hlo : -2 ^ 63 ≤ z) (hhi : z < 2 ^ 63)
    (hrest : ∀ b ∈ rest.head?, isDigit b = false) : strtoll (decInt z ++ rest) = z := by
  unfold decInt
  split
  · next hz =>
    have hv := digitsVal_decNat z.natAbs hrest
    rw [cons_append]
    simp only [strtoll, dropWhile_cons, show isSpace 45 = false from by decide,
      Bool.false_eq_true, if_false, if_true, hv]
    omega
  · next hz =>
    rw [strtoll_decNat (by omega) hrest]
    omega

theorem strtoll_bounds (s : Bytes) : -2 ^ 63 ≤ strtoll s ∧ strtoll s < 2 ^ 63 := by
  unfold strtoll
  split
  · omega
  split
  · omega
  · split <;> omega

theorem toInt32_succ_eq_iff {n : Int} (hlo : -2 ^ 31 ≤ n) (hhi : n < 2 ^ 31) :
    toInt32 (n + 1) = n + 1 ↔ n ≠ 2 ^ 31 - 1 := by
  constructor
  · rintro h rfl
    revert h
    decide
  · intro h
    exact Int.bmod_eq_of_le (by omega) (by omega)

theorem toInt32_succ_ne {n : Int} (hlo : -2 ^ 31 ≤ n) (hhi : n < 2 ^ 31) : toInt32 (n + 1) ≠ n := by
  by_cases h : n = 2 ^ 31 - 1
  · subst h
    decide
  · rw [(toInt32_succ_eq_iff hlo hhi).mpr h]
    omega

theorem toInt32_bounds (z : Int) : -2 ^ 31 ≤ toInt32 z ∧ toInt32 z < 2 ^ 31 := by
  have h1 := Int.le_bmod (x := z) (m := 2 ^ 32) (by decide)
  have h2 := Int.bmod_lt (x := z) (m := 2 ^ 32) (by decide)
  unfold toInt32
  omega

theorem toInt32_toInt64_add (z d : Int) : toInt32 (toInt64 (z + d)) = toInt32 (toInt32 z + d) := by
  unfold toInt32 toInt64
  rw [Int.bmod_add_bmod, Int.bmod_bmod_of_dvd (by decide)]

theorem toInt64_add_toInt64 (x y : Int) : toInt64 (toInt64 x + y) = toInt64 (x + y) :=
  Int.bmod_add_bmod

theorem toInt64_of_bounds {x : Int} (h : -2 ^ 63 ≤ x ∧ x < 2 ^ 63) : toInt64 x = x := by
  rw [toInt64, Int.bmod_eq_of_le] <;> omega

/-- **`%010lld` で書いた番号は読み戻せる。** -/
theorem strtoll_decPad {n : Nat} (hn : (n : Int) < 2 ^ 63) : strtoll (decPad n) = n := by
  cases hd : decPad n with
  | nil =>
    have : decNat n = [] := (append_eq_nil_iff.mp hd).2
    exact absurd this (decNat_ne_nil n)
  | cons b t =>
    have hb : isDigit b = true := decPad_isDigit n b (by rw [hd]; simp)
    rw [strtoll_of_digit hb, ← hd, digitsVal_decPad]
    omega

theorem strtoll_nonneg_of_no_minus (h : 45 ∉ s) : 0 ≤ strtoll s := by
  unfold strtoll
  split
  · exact Int.le_refl 0
  rename_i b t hs
  have hb : ¬b = 45 := by
    intro he
    have : b ∈ s.dropWhile isSpace := by rw [hs]; simp
    exact h (he ▸ (dropWhile_sublist _).subset this)
  rw [if_neg hb]
  split <;> omega

end Redcurrant.Infra
