import Redcurrant.Infra.Cstring

/-!
# pool の設定

option を切る loop は次の option の先頭の文字までを写し、終わりの 0 を置かない。
-/

namespace Redcurrant.Metautils

open Infra List

structure LbConfig (R : Type) where
  shortenRatio : R
  standardDeviation : Bool
  resetDelay : Int

/-- `g_ascii_strtod` と `CLAMP`。数の後ろに `?` か `&` があれば、そこで読み終わる。 -/
structure RatioReader (R : Type) where
  default : R
  read : Bytes → R
  read_append : ∀ (v rest : Bytes) (c : UInt8), c = 63 ∨ c = 38 → read (v ++ c :: rest) = read v

/-- `metautils_cfg_get_bool` に既定値 FALSE を渡したもの -/
def cfgGetBool (value : Bytes) : Bool :=
  [ascii "yes", ascii "true", ascii "on", ascii "enable", ascii "enabled"].any (strcaseeq value)

variable {R : Type} (reader : RatioReader R)

/-- `grid_lb_configure_kv` -/
def configureKv (cfg : LbConfig R) (k v : Bytes) : LbConfig R :=
  if strcaseeq k (ascii "shorten_ratio") then { cfg with shortenRatio := reader.read v }
  else if strcaseeq k (ascii "standard_deviation") then
    { cfg with standardDeviation := cfgGetBool v }
  else if strcaseeq k (ascii "reset_delay") then { cfg with resetDelay := toInt32 (strtoll v) }
  else cfg

/-- `grid_lb_configure_pair`。`l + 1` byte を写し、後ろの `beyond` まで、0 のある所まで読む。 -/
def configurePair (beyond : Bytes) (cfg : LbConfig R) (k : Bytes) (l : Nat) : LbConfig R :=
  let pair := cstr ((k ++ [0]).take (l + 1) ++ beyond)
  match splitAtChar 61 pair with
  | none => configureKv reader cfg pair []
  | some (key, value) => configureKv reader cfg key value

def isOptionSep (c : UInt8) : Bool := c == 63 || c == 38

/-- `_next`。区切りの後ろを返す。 -/
def nextOption (p : Bytes) : Option Bytes :=
  match p.dropWhile (fun c => !isOptionSep c) with
  | [] => none
  | _ :: e => some e

/-- 1 つの option の長さ。区切りを含む。 -/
def optionLength (p : Bytes) : Nat :=
  match nextOption p with
  | none => p.length
  | some e => p.length - e.length

theorem optionLength_pos {c : UInt8} {p : Bytes} : 0 < optionLength (c :: p) := by
  unfold optionLength nextOption
  split
  · exact Nat.succ_pos _
  rename_i e h
  split at h
  · cases h
  rename_i b e' hdrop
  cases h
  have := (dropWhile_sublist (fun c => !isOptionSep c) (l := c :: p)).length_le
  rw [hdrop, length_cons] at this
  omega

/-- `grid_lb_configure_options` の loop。`beyond` は写した先の後ろの byte。 -/
def configureLoop (beyond : Nat → Bytes) : Nat → LbConfig R → Bytes → LbConfig R
  | _, cfg, [] => cfg
  | n, cfg, c :: p =>
    configureLoop beyond (n + 1)
      (configurePair reader (beyond n) cfg (c :: p) (optionLength (c :: p)))
      ((c :: p).drop (optionLength (c :: p)))
termination_by _ _ p => p.length
decreasing_by
  have := optionLength_pos (c := c) (p := p)
  rw [length_drop, length_cons]
  omega

def resetOptions (cfg : LbConfig R) : LbConfig R :=
  { cfg with shortenRatio := reader.default, standardDeviation := false }

/-- `grid_lb_configure_options` -/
def configureOptions (beyond : Nat → Bytes) (cfg : LbConfig R) (opts : Bytes) : LbConfig R :=
  configureLoop reader beyond 0 (resetOptions reader cfg) opts

/-- option の列の文字列。区切りは option の間にある。 -/
def optionsText : List ((Bytes × Bytes) × UInt8) → Bytes × Bytes → Bytes
  | [], (k, v) => k ++ 61 :: v
  | ((k, v), c) :: l, x => k ++ 61 :: v ++ c :: optionsText l x

/-- 区切りや `=` の紛れない option -/
structure PairOk (x : Bytes × Bytes) : Prop where
  key : ∀ c ∈ x.1, isOptionSep c = false ∧ c ≠ 0 ∧ c ≠ 61
  value : ∀ c ∈ x.2, isOptionSep c = false ∧ c ≠ 0

/-- option を 1 つずつ、左から順に適用する -/
def applyPairs (cfg : LbConfig R) (l : List (Bytes × Bytes)) : LbConfig R :=
  l.foldl (fun cfg x => configureKv reader cfg x.1 x.2) cfg

section

variable {reader} {k v t rest kv : Bytes} {c : UInt8} {x : Bytes × Bytes} {cfg : LbConfig R}
  {beyond : Nat → Bytes} {n : Nat}

theorem digitsVal_append_stop (hc : isDigit c = false) :
    digitsVal (v ++ c :: rest) = digitsVal v := by
  have h : (v ++ c :: rest).takeWhile isDigit = v.takeWhile isDigit := by
    induction v with
    | nil => exact takeWhile_cons_of_neg (by simpa using hc)
    | cons b v ih => rw [cons_append, takeWhile_cons, takeWhile_cons, ih]
  rw [digitsVal, digitsVal, h]

theorem strtoll_append_stop (hdigit : isDigit c = false) (hspace : isSpace c = false)
    (hneg : c ≠ 45) (hpos : c ≠ 43) : strtoll (v ++ c :: rest) = strtoll v := by
  have hstop : ∀ w, digitsVal (w ++ c :: rest) = digitsVal w := fun w =>
    digitsVal_append_stop hdigit
  rw [strtoll, strtoll, dropWhile_append]
  cases h : v.dropWhile isSpace with
  | nil =>
    have hzero : digitsVal (c :: rest) = 0 := hstop []
    rw [isEmpty_nil, if_pos rfl, dropWhile_cons_of_neg (by simpa using hspace)]
    simp only [hneg, hpos, if_false, hzero]
    rfl
  | cons b t =>
    have hbt : digitsVal (b :: (t ++ c :: rest)) = _ := hstop (b :: t)
    rw [if_neg (by simp), cons_append]
    simp only [hstop t, hbt]

theorem cfgGetBool_append (hc : isOptionSep c = true) : cfgGetBool (v ++ c :: t) = false := by
  have hword : ∀ w ∈ [ascii "yes", ascii "true", ascii "on", ascii "enable", ascii "enabled"],
      ∀ b ∈ w.map toLower, isOptionSep b = false := by
    decide +kernel
  have hlower : toLower c = c := by
    have hsep : c = 63 ∨ c = 38 := by simpa [isOptionSep] using hc
    rcases hsep with rfl | rfl <;> rfl
  refine any_eq_false.mpr fun w hw he => ?_
  have hmem : c ∈ (v ++ c :: t).map toLower := by
    rw [map_append, map_cons, hlower]
    exact mem_append_right _ mem_cons_self
  rw [beq_iff_eq.mp he] at hmem
  rw [hword w hw c hmem] at hc
  cases hc

/-- 値の後ろに区切りが残ると、真の値だけ読めない -/
theorem configureKv_append (hc : isOptionSep c = true) :
    configureKv reader { cfg with standardDeviation := false } k (v ++ c :: t) =
      { configureKv reader cfg k v with standardDeviation := false } := by
  have hsep : c = 63 ∨ c = 38 := by simpa [isOptionSep] using hc
  have hdelay : strtoll (v ++ c :: t) = strtoll v := by
    rcases hsep with rfl | rfl
    · exact strtoll_append_stop (by decide) (by decide) (by decide) (by decide)
    · exact strtoll_append_stop (by decide) (by decide) (by decide) (by decide)
  rw [configureKv, configureKv, reader.read_append v t c hsep, hdelay, cfgGetBool_append hc]
  split
  · rfl
  split
  · rfl
  · split <;> rfl

theorem PairOk.text (hx : PairOk x) : ∀ b ∈ x.1 ++ 61 :: x.2, isOptionSep b = false ∧ b ≠ 0 := by
  intro b hb
  rcases mem_append.mp hb with hb | hb
  · exact ⟨(hx.key b hb).1, (hx.key b hb).2.1⟩
  rcases mem_cons.mp hb with rfl | hb
  · decide
  · exact hx.value b hb

theorem configurePair_eq (hx : PairOk x) {p beyond t : Bytes} {l : Nat}
    (hp : cstr ((p ++ [0]).take (l + 1) ++ beyond) = x.1 ++ 61 :: x.2 ++ t) :
    configurePair reader beyond cfg p l = configureKv reader cfg x.1 (x.2 ++ t) := by
  have hkey : 61 ∉ x.1 := fun h => (hx.key 61 h).2.2 rfl
  rw [configurePair]
  simp [hp, splitAtChar_append hkey]

section

variable (hkv : ∀ b ∈ kv, isOptionSep b = false ∧ b ≠ 0)
include hkv

theorem optionLength_append (hc : isOptionSep c = true) :
    optionLength (kv ++ c :: rest) = kv.length + 1 := by
  rw [optionLength, nextOption, dropWhile_append_of_pos fun b hb => by simp [hkv b hb],
    dropWhile_cons_of_neg (by simp [hc])]
  simp only [length_append, length_cons]
  omega

theorem optionLength_last : optionLength kv = kv.length := by
  have hdrop : kv.dropWhile (fun c => !isOptionSep c) = [] := by
    rw [dropWhile_eq_nil_iff]
    exact fun b hb => by simp [hkv b hb]
  rw [optionLength, nextOption, hdrop]

theorem cstr_append : cstr (kv ++ t) = kv ++ cstr t :=
  takeWhile_append_of_pos fun b hb => decide_eq_true (hkv b hb).2

end

/-- 最後でない option は区切りの後ろまで読まれる -/
theorem configureLoop_append (hx : PairOk x) (hc : isOptionSep c = true) :
    configureLoop reader beyond n { cfg with standardDeviation := false }
        (x.1 ++ 61 :: x.2 ++ c :: rest) =
      configureLoop reader beyond (n + 1)
        { configureKv reader cfg x.1 x.2 with standardDeviation := false } rest := by
  have hcstr : cstr ((x.1 ++ 61 :: x.2 ++ c :: rest ++ [0]).take
      ((x.1 ++ 61 :: x.2).length + 1 + 1) ++ beyond n) =
      x.1 ++ 61 :: x.2 ++ c :: cstr ((rest ++ [0]).take 1 ++ beyond n) := by
    have hzero : c ≠ 0 := by
      rintro rfl
      exact absurd hc (show ¬ isOptionSep 0 = true by decide)
    rw [append_assoc, take_append, take_of_length_le (by omega), append_assoc, cstr_append hx.text,
      Nat.add_assoc]
    simp [cstr, hzero]
  obtain ⟨b, p, hp⟩ :=
    exists_cons_of_ne_nil (append_ne_nil_of_right_ne_nil (x.1 ++ 61 :: x.2) (cons_ne_nil c rest))
  rw [hp, configureLoop, ← hp, optionLength_append hx.text hc, configurePair_eq hx hcstr,
    configureKv_append hc, drop_append, drop_of_length_le (by omega), Nat.add_sub_cancel_left]
  rfl

theorem configureLoop_last (hx : PairOk x) :
    configureLoop reader beyond n cfg (x.1 ++ 61 :: x.2) = configureKv reader cfg x.1 x.2 := by
  have hcstr : cstr ((x.1 ++ 61 :: x.2 ++ [0]).take ((x.1 ++ 61 :: x.2).length + 1) ++ beyond n) =
      x.1 ++ 61 :: x.2 ++ [] := by
    rw [take_of_length_le (by rw [length_append]; rfl), append_assoc, cstr_append hx.text]
    rfl
  obtain ⟨b, p, hp⟩ := exists_cons_of_ne_nil (show x.1 ++ 61 :: x.2 ≠ [] by simp)
  rw [hp, configureLoop, ← hp, optionLength_last hx.text, configurePair_eq hx hcstr, drop_length,
    configureLoop, append_nil]

/-- 最後の option だけが正しく読まれる -/
theorem configureLoop_eq (hx : PairOk x) {l : List ((Bytes × Bytes) × UInt8)}
    (hl : ∀ y ∈ l, PairOk y.1 ∧ isOptionSep y.2 = true) :
    configureLoop reader beyond n { cfg with standardDeviation := false } (optionsText l x) =
      configureKv reader { applyPairs reader cfg (l.map (·.1)) with standardDeviation := false }
        x.1 x.2 := by
  induction l generalizing n cfg with
  | nil => exact configureLoop_last hx
  | cons y l ih =>
    obtain ⟨hy, hl⟩ := forall_mem_cons.mp hl
    show configureLoop reader beyond n _ (y.1.1 ++ 61 :: y.1.2 ++ y.2 :: optionsText l x) = _
    rw [configureLoop_append hy.1 hy.2, ih hl]
    rfl

/-- `standard_deviation` の他の鍵は前の値を残す -/
theorem configureKv_eq_iff :
    configureKv reader { cfg with standardDeviation := false } k v = configureKv reader cfg k v ↔
      strcaseeq k (ascii "standard_deviation") = true ∨ cfg.standardDeviation = false := by
  obtain ⟨ratio, deviation, delay⟩ := cfg
  rw [configureKv, configureKv]
  by_cases hk : strcaseeq k (ascii "standard_deviation") = true
  · have hratio : ¬ strcaseeq k (ascii "shorten_ratio") = true := by
      intro h
      have := (beq_iff_eq.mp hk).symm.trans (beq_iff_eq.mp h)
      exact absurd this (by decide +kernel)
    simp [hk, hratio]
  · simp only [hk, Bool.false_eq_true, if_false, false_or]
    split
    · simp
    · split <;> simp

end

/-- **設定が option を左から順に適用したものに等しいのは、最後の option が standard_deviation であるか、その前の option が
standard_deviation を FALSE に残すときに限る。** -/
theorem configure_options_iff (l : List ((Bytes × Bytes) × UInt8)) (x : Bytes × Bytes)
    (hl : ∀ y ∈ l, PairOk y.1 ∧ isOptionSep y.2 = true) (hx : PairOk x) (cfg : LbConfig R)
    (beyond : Nat → Bytes) :
    configureOptions reader beyond cfg [] = resetOptions reader cfg ∧
    (configureOptions reader beyond cfg (optionsText l x) =
        applyPairs reader (resetOptions reader cfg) (l.map (·.1) ++ [x]) ↔
      strcaseeq x.1 (ascii "standard_deviation") = true ∨
        (applyPairs reader (resetOptions reader cfg) (l.map (·.1))).standardDeviation = false) := by
  refine ⟨by rw [configureOptions, configureLoop], ?_⟩
  have happly : applyPairs reader (resetOptions reader cfg) (l.map (·.1) ++ [x]) =
      configureKv reader (applyPairs reader (resetOptions reader cfg) (l.map (·.1))) x.1 x.2 := by
    rw [applyPairs, foldl_append]
    rfl
  show configureLoop reader beyond 0 { resetOptions reader cfg with standardDeviation := false }
    (optionsText l x) = _ ↔ _
  rw [configureLoop_eq hx hl, happly, configureKv_eq_iff]

def unitReader : RatioReader Unit := ⟨(), fun _ => (), fun _ _ _ _ => rfl⟩

/-- 最後の standard_deviation は正しく設定される -/
theorem configure_options_two : configureOptions unitReader (fun _ => []) ⟨(), false, 0⟩
      (ascii "reset_delay=5&standard_deviation=yes") =
    applyPairs unitReader ⟨(), false, 0⟩
      [(ascii "reset_delay", ascii "5"), (ascii "standard_deviation", ascii "yes")] :=
  (configure_options_iff unitReader [((ascii "reset_delay", ascii "5"), 38)]
    (ascii "standard_deviation", ascii "yes")
    (by simp only [forall_mem_cons]; exact ⟨⟨⟨by decide +kernel, by decide +kernel⟩, rfl⟩, by simp⟩)
    ⟨by decide +kernel, by decide +kernel⟩ ⟨(), false, 0⟩ fun _ => []).2.mpr (.inl (by decide +kernel))

/-- **反例。** 後ろに別の option があると、standard_deviation は FALSE。 -/
theorem deviation_lost : (configureOptions unitReader (fun _ => []) ⟨(), false, 0⟩
      (ascii "standard_deviation=yes&reset_delay=5")).standardDeviation = false ∧
    (applyPairs unitReader ⟨(), false, 0⟩ [(ascii "standard_deviation", ascii "yes"),
      (ascii "reset_delay", ascii "5")]).standardDeviation = true := by
  decide +kernel

end Redcurrant.Metautils
