import Redcurrant.Infra.Cstring

/-!
# 番地の文字列

libc の `inet_ntop` と `inet_pton`。IPv6 の最も長い 0 の並びは `::` と書き、IPv4 を含む番地の末尾は IPv4 の形で書く。
-/

namespace Redcurrant.Infra

open List Option

/-! ## IPv4 -/

def inetNtop4 (a : Bytes) : Bytes := [46].intercalate (a.map fun b => decNat b.toNat)

/-- 1 byte の十進数を読む。先頭の 0 は許さない。 -/
def readOctet (s : Bytes) : Option UInt8 :=
  if s.isEmpty = false ∧ s.all isDigit ∧ (s.head? = some 48 → s.length = 1) ∧ digitsVal s ≤ 255
  then some (UInt8.ofNat (digitsVal s)) else none

def inetPton4 (s : Bytes) : Option Bytes :=
  if (s.splitOn 46).length = 4 then (s.splitOn 46).mapM readOctet else none

/-! ## IPv6 を書く -/

def hexChar (n : Nat) : UInt8 := if n < 10 then UInt8.ofNat (48 + n) else UInt8.ofNat (87 + n)

/-- `%x` -/
def hexNat (n : Nat) : Bytes :=
  if n < 16 then [hexChar n] else hexNat (n / 16) ++ [hexChar (n % 16)]

def words : Bytes → List Nat
  | a :: b :: l => (256 * a.toNat + b.toNat) :: words l
  | _ => []

def wordBytes (w : Nat) : Bytes := [UInt8.ofNat (w / 256), UInt8.ofNat (w % 256)]

structure ZeroRun where
  (base len : Nat)
  deriving DecidableEq

/-- 長い方の並び。同じ長さなら先の並び。 -/
def longer : Option ZeroRun → Option ZeroRun → Option ZeroRun
  | best, none => best
  | none, some cur => some cur
  | some best, some cur => if best.len < cur.len then some cur else some best

def zeroRuns (i : Nat) (best cur : Option ZeroRun) : List Nat → Option ZeroRun
  | [] => longer best cur
  | w :: ws =>
    if w = 0 then
      zeroRuns (i + 1) best (some ((cur.map fun c => ⟨c.base, c.len + 1⟩).getD ⟨i, 1⟩)) ws
    else zeroRuns (i + 1) (longer best cur) none ws

/-- `::` と書く並び。1 つだけの 0 は縮めない。 -/
def bestRun (ws : List Nat) : Option ZeroRun :=
  (zeroRuns 0 none none ws).filter fun r => decide (2 ≤ r.len)

/-- `:` で区切った語の列 -/
def joinHex (ws : List Nat) : Bytes := [58].intercalate (ws.map hexNat)

def inetNtop6 (a : Bytes) : Bytes :=
  let ws := words a
  match bestRun ws with
  | none => joinHex ws
  | some r =>
    if r = ⟨0, 6⟩ then [58, 58] ++ inetNtop4 (a.drop 12)
    else if r = ⟨0, 5⟩ ∧ ws[5]? = some 65535 then
      [58, 58] ++ hexNat 65535 ++ [58] ++ inetNtop4 (a.drop 12)
    else joinHex (ws.take r.base) ++ [58, 58] ++ joinHex (ws.drop (r.base + r.len))

/-! ## IPv6 を読む -/

def hexVal (c : UInt8) : Option Nat :=
  if isDigit c then some (c.toNat - 48)
  else if 97 ≤ c && c ≤ 102 then some (c.toNat - 87)
  else if 65 ≤ c && c ≤ 70 then some (c.toNat - 55)
  else none

/-- `inet_pton6` の状態。`out` は書いた byte、`gap` は `::` の位置、`tok` は読んでいる語からの残り。 -/
structure Pton6 where
  out : Bytes
  gap : Option Nat
  (val seen : Nat)
  tok : Bytes
  deriving DecidableEq

def pton6Loop (s : Pton6) : Bytes → Option Pton6
  | [] => some s
  | c :: rest =>
    match hexVal c with
    | some d =>
      if s.seen = 4 then none
      else pton6Loop { s with val := 16 * s.val + d, seen := s.seen + 1 } rest
    | none =>
      if c = 58 then
        if s.seen = 0 then
          if s.gap.isSome then none
          else pton6Loop { s with gap := some s.out.length, tok := rest } rest
        else if rest.isEmpty ∨ 16 < s.out.length + 2 then none
        else pton6Loop ⟨s.out ++ wordBytes s.val, s.gap, 0, 0, rest⟩ rest
      else if c = 46 ∧ s.out.length + 4 ≤ 16 then
        (inetPton4 s.tok).map fun o => { s with out := s.out ++ o, seen := 0 }
      else none

/-- `::` の位置に 0 を補う -/
def fillGap (gap : Option Nat) (out : Bytes) : Option Bytes :=
  match gap with
  | none => if out.length = 16 then some out else none
  | some g =>
    if out.length < 16 then
      some (out.take g ++ replicate (16 - out.length) 0 ++ out.drop g)
    else none

/-- loop の後で、残った語を書き、0 を補う -/
def pton6Finish (s : Pton6) : Option Bytes :=
  if 0 < s.seen then
    if 16 < s.out.length + 2 then none else fillGap s.gap (s.out ++ wordBytes s.val)
  else fillGap s.gap s.out

/-- 先頭の `::` の 1 つ目の `:` を読み飛ばす -/
def pton6Start : Bytes → Option Bytes
  | [] => some []
  | c :: rest => if c = 58 then if rest.head? = some 58 then some rest else none else some (c :: rest)

def inetPton6 (s : Bytes) : Option Bytes :=
  (pton6Start s).bind fun s => (pton6Loop ⟨[], none, 0, 0, s⟩ s).bind pton6Finish

example : inetNtop6 [0x20, 1, 0xd, 0xb8, 0, 0, 0, 0, 0, 0, 0, 0, 0, 0, 0, 1] =
    ascii "2001:db8::1" := by decide +kernel

example : inetNtop6 [0, 0, 0, 0, 0, 0, 0, 0, 0, 0, 0xff, 0xff, 10, 0, 0, 1] =
    ascii "::ffff:10.0.0.1" := by decide +kernel

/-! ## IPv4 の読み戻し -/

theorem readOctet_decNat : ∀ n < 256, readOctet (decNat n) = some (UInt8.ofNat n) := by
  decide +kernel

variable {a s rest out tok b : Bytes} {c : UInt8} {gap : Option Nat} {ws : List Nat}

theorem forall_mem_intercalate {P : UInt8 → Prop} {ls : List Bytes} (hc : P c)
    (h : ∀ l ∈ ls, ∀ b ∈ l, P b) : ∀ b ∈ [c].intercalate ls, P b := by
  induction ls with
  | nil => simp
  | cons l ls ih =>
    obtain ⟨hl, hls⟩ := forall_mem_cons.mp h
    cases ls with
    | nil => simpa using hl
    | cons l' ls =>
      rw [intercalate_cons_cons, forall_mem_append, forall_mem_append, forall_mem_singleton]
      exact ⟨⟨hl, hc⟩, ih hls⟩

theorem length_intercalate_le {ls : List Bytes} {n : Nat} (h : ∀ l ∈ ls, l.length ≤ n) :
    ([c].intercalate ls).length ≤ (n + 1) * ls.length := by
  induction ls with
  | nil => simp
  | cons l ls ih =>
    obtain ⟨hl, hls⟩ := forall_mem_cons.mp h
    have ih := ih hls
    rw [length_cons, Nat.mul_succ]
    cases ls with
    | nil =>
      rw [intercalate_singleton]
      omega
    | cons l' ls =>
      rw [intercalate_cons_cons, length_append, length_append, length_singleton]
      omega

theorem inetNtop4_byte (h : c ∈ inetNtop4 a) : c = 46 ∨ isDigit c = true := by
  refine forall_mem_intercalate (P := fun c => c = 46 ∨ isDigit c = true) (.inl rfl)
    (fun l hl b hb => ?_) c h
  obtain ⟨n, -, rfl⟩ := mem_map.mp hl
  exact .inr (decNat_isDigit _ b hb)

theorem dot_notMem_decNat (n : Nat) : 46 ∉ decNat n := by
  intro h
  have := decNat_isDigit n 46 h
  revert this
  decide

/-- **IPv4 の番地は書いて読み戻せる。** -/
theorem inetPton4_inetNtop4 (h : a.length = 4) : inetPton4 (inetNtop4 a) = some a := by
  have hsplit : (inetNtop4 a).splitOn 46 = a.map fun b => decNat b.toNat := by
    refine splitOn_intercalate 46 ?_ ?_
    · intro l hl
      obtain ⟨b, -, rfl⟩ := mem_map.mp hl
      exact dot_notMem_decNat _
    · simpa using ne_nil_of_length_eq_add_one h
  have hread : (readOctet ∘ fun b : UInt8 => decNat b.toNat) = some := by
    funext b
    have hb := readOctet_decNat b.toNat (UInt8.toNat_lt_size b)
    simpa using hb
  rw [inetPton4, hsplit, length_map, if_pos h, mapM_map, hread]
  have hpure : a.mapM (fun b => (pure b : Option UInt8)) = pure (a.map fun b => b) := mapM_pure
  simpa using hpure

theorem inetNtop4_ne_nil (h : a.length = 4) : inetNtop4 a ≠ [] := by
  intro he
  have hread := inetPton4_inetNtop4 h
  rw [he] at hread
  cases hread

/-! ## 16 進数の読み戻し -/

theorem hexVal_hexChar : ∀ n < 16, hexVal (hexChar n) = some n := by
  decide +kernel

theorem hexVal_of_isDigit (h : isDigit c = true) : hexVal c = some (c.toNat - 48) := by
  rw [hexVal, if_pos h]

theorem hexNat_ne_nil (n : Nat) : hexNat n ≠ [] := by
  rw [hexNat]
  split <;> simp

theorem length_hexNat_le {k : Nat} : ∀ {n : Nat}, n < 16 ^ (k + 1) → (hexNat n).length ≤ k + 1 := by
  induction k with
  | zero =>
    intro n h
    rw [hexNat, if_pos (by simpa using h)]
    rfl
  | succ k ih =>
    intro n h
    rw [hexNat]
    split
    · simp
    have hlt : n / 16 < 16 ^ (k + 1) := by
      rw [Nat.div_lt_iff_lt_mul (by decide)]
      exact h
    have := ih hlt
    rw [length_append, length_singleton]
    omega

theorem forall_mem_hexNat {P : UInt8 → Prop} (hhex : ∀ n < 16, P (hexChar n)) :
    ∀ {n : Nat} {c : UInt8}, c ∈ hexNat n → P c := by
  intro n
  induction n using Nat.strongRecOn with
  | ind n ih =>
    intro c h
    rw [hexNat] at h
    split at h
    · rename_i hn
      rw [mem_singleton.mp h]
      exact hhex n hn
    rcases mem_append.mp h with h | h
    · exact ih _ (by omega) h
    · rw [mem_singleton.mp h]
      exact hhex _ (Nat.mod_lt _ (by decide))

theorem pton6Loop_digit {s : Pton6} {d : Nat} (hc : hexVal c = some d) (hseen : s.seen ≠ 4) :
    pton6Loop s (c :: rest) =
      pton6Loop { s with val := 16 * s.val + d, seen := s.seen + 1 } rest := by
  rw [pton6Loop, hc]
  exact if_neg hseen

/-- **16 進数の 1 語を読む。** 桁の数の帰納法による。 -/
theorem pton6Loop_hexNat : ∀ {n : Nat} {rest : Bytes},
    n < 65536 → pton6Loop ⟨out, gap, 0, 0, tok⟩ (hexNat n ++ rest) =
      pton6Loop ⟨out, gap, n, (hexNat n).length, tok⟩ rest := by
  intro n
  induction n using Nat.strongRecOn with
  | ind n ih =>
    intro rest hn
    rw [hexNat]
    split
    · rename_i hlt
      rw [singleton_append, pton6Loop_digit (hexVal_hexChar n hlt) (by simp)]
      simp
    have hlen : (hexNat (n / 16)).length ≤ 3 := length_hexNat_le (by omega)
    have hmod : n % 16 < 16 := Nat.mod_lt _ (by decide)
    rw [append_assoc, ih (n / 16) (by omega) (by omega), singleton_append,
      pton6Loop_digit (hexVal_hexChar _ hmod) (by simp; omega), length_append,
      length_singleton, Nat.div_add_mod]

theorem pton6Loop_group {w : Nat} (hw : w < 65536) (hrest : rest ≠ []) (hlen : out.length + 2 ≤ 16) :
    pton6Loop ⟨out, gap, 0, 0, tok⟩ (hexNat w ++ 58 :: rest) =
      pton6Loop ⟨out ++ wordBytes w, gap, 0, 0, rest⟩ rest := by
  have hpos : (hexNat w).length ≠ 0 := by simpa using hexNat_ne_nil w
  have hempty : rest.isEmpty = false := by simpa using hrest
  rw [pton6Loop_hexNat hw, pton6Loop]
  simp only [if_true, hpos, if_false, hempty, Bool.false_eq_true, false_or]
  exact if_neg (by omega)

theorem pton6Loop_groups (gap : Option Nat) (hrest : rest ≠ []) :
    ∀ (ws : List Nat) (out tok : Bytes), (∀ w ∈ ws, w < 65536) →
      out.length + 2 * ws.length ≤ 16 → ∃ tok',
      pton6Loop ⟨out, gap, 0, 0, tok⟩ (ws.flatMap (fun w => hexNat w ++ [58]) ++ rest) =
        pton6Loop ⟨out ++ ws.flatMap wordBytes, gap, 0, 0, tok'⟩ rest
  | [], out, tok, _, _ => ⟨tok, by simp⟩
  | w :: ws, out, tok, hws, hlen => by
    rw [length_cons] at hlen
    have hnext : ws.flatMap (fun w => hexNat w ++ [58]) ++ rest ≠ [] := by simp [hrest]
    have hlen' : (out ++ wordBytes w).length + 2 * ws.length ≤ 16 := by
      simp only [length_append, wordBytes, length_cons, length_nil]
      omega
    obtain ⟨tok', htok⟩ := pton6Loop_groups gap hrest ws _
      (ws.flatMap (fun w => hexNat w ++ [58]) ++ rest)
      (fun x hx => hws x (mem_cons_of_mem _ hx)) hlen'
    refine ⟨tok', ?_⟩
    rw [flatMap_cons, append_assoc, append_assoc, singleton_append,
      pton6Loop_group (hws w mem_cons_self) hnext (by omega), htok, flatMap_cons,
      append_assoc]

theorem joinHex_cons {w : Nat} (h : ws ≠ []) :
    joinHex (w :: ws) = hexNat w ++ 58 :: joinHex ws := by
  rw [joinHex, map_cons, intercalate_cons_of_ne_nil (by simpa using h), append_assoc]
  rfl

theorem joinHex_ne_nil (h : ws ≠ []) : joinHex ws ≠ [] := by
  cases ws with
  | nil => exact absurd rfl h
  | cons w ws =>
    cases ws with
    | nil => simpa [joinHex] using hexNat_ne_nil w
    | cons x ws =>
      rw [joinHex_cons (by simp)]
      simp

/-- **末尾の語の列を読み、残りを片付ける。** -/
theorem pton6End_joinHex : ∀ {ws : List Nat} {out tok : Bytes},
    (∀ w ∈ ws, w < 65536) → out.length + 2 * ws.length ≤ 16 →
    (pton6Loop ⟨out, gap, 0, 0, tok⟩ (joinHex ws)).bind pton6Finish =
      fillGap gap (out ++ ws.flatMap wordBytes)
  | [], out, tok, _, _ => by simp [joinHex, pton6Loop, pton6Finish]
  | [w], out, tok, hws, hlen => by
    have hpos : 0 < (hexNat w).length := length_pos_iff.mpr (hexNat_ne_nil w)
    have htext : joinHex [w] = hexNat w ++ [] := by simp [joinHex]
    rw [htext, pton6Loop_hexNat (hws w mem_cons_self), pton6Loop, bind_some, pton6Finish]
    simp only [hpos, if_true]
    rw [if_neg (by simp at hlen; omega)]
    simp
  | w :: x :: ws, out, tok, hws, hlen => by
    rw [length_cons] at hlen
    have hlen' : (out ++ wordBytes w).length + 2 * (x :: ws).length ≤ 16 := by
      simp only [length_append, wordBytes, length_cons, length_nil] at hlen ⊢
      omega
    rw [joinHex_cons (by simp), pton6Loop_group (hws w mem_cons_self)
      (joinHex_ne_nil (by simp)) (by omega),
      pton6End_joinHex (fun y hy => hws y (mem_cons_of_mem _ hy)) hlen']
    simp

/-! ## `::` の位置 -/

/-- 語の列 `ws` の中の 0 の並び -/
def ZeroRun.In (r : ZeroRun) (ws : List Nat) : Prop :=
  ∃ p q, ws = p ++ replicate r.len 0 ++ q ∧ p.length = r.base

theorem longer_in {best cur : Option ZeroRun} {r : ZeroRun} (hbest : ∀ b ∈ best, b.In ws)
    (hcur : ∀ c ∈ cur, c.In ws) (h : longer best cur = some r) : r.In ws := by
  cases cur with
  | none => exact hbest r h
  | some c =>
    cases best with
    | none => exact hcur r h
    | some b =>
      rw [longer] at h
      split at h
      · exact hcur r h
      · exact hbest r h

theorem zeroRuns_in : ∀ {rest pre : List Nat} {best cur : Option ZeroRun}
    {r : ZeroRun}, ws = pre ++ rest → (∀ b ∈ best, b.In ws) →
    (∀ c ∈ cur, ∃ p, pre = p ++ replicate c.len 0 ∧ p.length = c.base) →
    zeroRuns pre.length best cur rest = some r → r.In ws := by
  intro rest
  induction rest with
  | nil =>
    intro pre best cur r hws hbest hcur h
    refine longer_in hbest (fun c hc => ?_) h
    obtain ⟨p, hp, hbase⟩ := hcur c hc
    exact ⟨p, [], by rw [hws, hp], hbase⟩
  | cons w rest ih =>
    intro pre best cur r hws hbest hcur h
    have hws' : ws = (pre ++ [w]) ++ rest := by rw [hws, append_assoc, singleton_append]
    rw [zeroRuns] at h
    split at h
    · rename_i hw
      subst hw
      rw [show pre.length + 1 = (pre ++ [0]).length from by simp] at h
      refine ih hws' hbest ?_ h
      intro c hc
      cases cur with
      | none =>
        cases hc
        exact ⟨pre, rfl, rfl⟩
      | some c0 =>
        cases hc
        obtain ⟨p, hp, hbase⟩ := hcur c0 rfl
        have hpre : pre ++ [0] = p ++ replicate (c0.len + 1) 0 := by
          rw [hp, replicate_succ', append_assoc]
        exact ⟨p, hpre, hbase⟩
    · rw [show pre.length + 1 = (pre ++ [w]).length from by simp] at h
      refine ih hws' (fun b hb => ?_) (by simp) h
      refine longer_in hbest (fun c hc => ?_) hb
      obtain ⟨p, hp, hbase⟩ := hcur c hc
      exact ⟨p, w :: rest, by rw [hws, hp], hbase⟩

theorem bestRun_in {r : ZeroRun} (h : bestRun ws = some r) : r.In ws ∧ 2 ≤ r.len := by
  obtain ⟨h, hlen⟩ := filter_eq_some_iff.mp h
  have hin : zeroRuns ([] : List Nat).length none none ws = some r := h
  exact ⟨zeroRuns_in rfl (by simp) (by simp) hin, of_decide_eq_true hlen⟩

/-! ## 番地と語 -/

theorem wordBytes_word (a b : UInt8) : wordBytes (256 * a.toNat + b.toNat) = [a, b] := by
  have hb := UInt8.toNat_lt_size b
  have hdiv : (256 * a.toNat + b.toNat) / 256 = a.toNat := by
    simp only [UInt8.size] at hb
    omega
  rw [wordBytes, hdiv]
  simp

theorem flatMap_wordBytes_words : ∀ {n : Nat} {a : Bytes}, a.length = 2 * n →
    (words a).flatMap wordBytes = a ∧ (words a).length = n ∧ ∀ w ∈ words a, w < 65536
  | 0, a, h => by
    rw [length_eq_zero_iff.mp (by omega : a.length = 0)]
    simp [words]
  | n + 1, [], h => by simp at h
  | n + 1, [_], h => by simp at h; omega
  | n + 1, x :: y :: a, h => by
    have hx := UInt8.toNat_lt_size x
    have hy := UInt8.toNat_lt_size y
    simp only [UInt8.size] at hx hy
    obtain ⟨hflat, hlen, hlt⟩ := flatMap_wordBytes_words (n := n) (a := a) (by simp at h; omega)
    refine ⟨?_, ?_, ?_⟩
    · rw [words, flatMap_cons, hflat, wordBytes_word]
      rfl
    · rw [words, length_cons, hlen]
    · rw [words, forall_mem_cons]
      exact ⟨by omega, hlt⟩

/-! ## IPv6 の読み戻し -/

theorem pton6Start_hexNat (w : Nat) (rest : Bytes) :
    pton6Start (hexNat w ++ rest) = some (hexNat w ++ rest) := by
  cases hw : hexNat w with
  | nil => exact absurd hw (hexNat_ne_nil w)
  | cons c l =>
    have hne : c ≠ 58 := forall_mem_hexNat (P := (· ≠ 58)) (by decide) (hw ▸ mem_cons_self)
    rw [cons_append, pton6Start, if_neg hne]

theorem pton6Loop_gap : pton6Loop ⟨out, none, 0, 0, tok⟩ (58 :: rest) =
    pton6Loop ⟨out, some out.length, 0, 0, rest⟩ rest := by
  rfl

theorem inetPton6_leading (rest : Bytes) : inetPton6 ([58, 58] ++ rest) =
    (pton6Loop ⟨[], some 0, 0, 0, rest⟩ rest).bind pton6Finish := by
  rfl

theorem joinHex_append_colon : ∀ {ws : List Nat}, ws ≠ [] →
    joinHex ws ++ 58 :: rest = ws.flatMap (fun w => hexNat w ++ [58]) ++ rest
  | [], h => absurd rfl h
  | [w], _ => by simp [joinHex]
  | w :: x :: ws, _ => by
    rw [joinHex_cons (by simp), append_assoc, cons_append, joinHex_append_colon (by simp)]
    simp

theorem pton6Loop_digits (out tok rest : Bytes) (gap : Option Nat) : ∀ (ds : Bytes) (v n : Nat),
    (∀ c ∈ ds, isDigit c = true) → n + ds.length ≤ 4 → ∃ v',
    pton6Loop ⟨out, gap, v, n, tok⟩ (ds ++ rest) = pton6Loop ⟨out, gap, v', n + ds.length, tok⟩ rest
  | [], v, n, _, _ => ⟨v, rfl⟩
  | c :: ds, v, n, hds, hlen => by
    rw [length_cons] at hlen
    obtain ⟨v', h⟩ := pton6Loop_digits out tok rest gap ds (16 * v + (c.toNat - 48)) (n + 1)
      (fun x hx => hds x (mem_cons_of_mem _ hx)) (by omega)
    refine ⟨v', ?_⟩
    rw [cons_append, pton6Loop_digit (hexVal_of_isDigit (hds c mem_cons_self))
      (by simp; omega), h, length_cons, Nat.add_assoc, Nat.add_comm 1]

theorem length_decNat_le : ∀ n < 256, (decNat n).length ≤ 3 := by
  decide +kernel

/-- **末尾の IPv4 の形を読む。** -/
theorem pton6End_inetNtop4 {o : Bytes} (ho : o.length = 4) (hlen : out.length ≤ 12) :
    (pton6Loop ⟨out, gap, 0, 0, inetNtop4 o⟩ (inetNtop4 o)).bind pton6Finish =
      fillGap gap (out ++ o) := by
  have hread := inetPton4_inetNtop4 ho
  obtain ⟨b, o', rfl⟩ := exists_cons_of_length_eq_add_one ho
  have ho' : o' ≠ [] := ne_nil_of_length_eq_add_one (Nat.succ.inj ho)
  have htext : inetNtop4 (b :: o') = decNat b.toNat ++ 46 :: inetNtop4 o' := by
    rw [inetNtop4, map_cons, intercalate_cons_of_ne_nil (by simpa using ho'),
      append_assoc, singleton_append]
    rfl
  generalize inetNtop4 (b :: o') = tok at hread htext ⊢
  obtain ⟨v, hv⟩ := pton6Loop_digits out tok (46 :: inetNtop4 o') gap (decNat b.toNat) 0 0
    (decNat_isDigit b.toNat)
    (by have := length_decNat_le b.toNat (UInt8.toNat_lt_size b); omega)
  have hdot : pton6Loop ⟨out, gap, v, 0 + (decNat b.toNat).length, tok⟩ (46 :: inetNtop4 o') =
      some ⟨out ++ b :: o', gap, v, 0, tok⟩ := by
    rw [pton6Loop, show hexVal 46 = none from by decide]
    simp only [show ¬(46 : UInt8) = 58 from by decide, if_false, true_and, hread, map_some]
    exact if_pos (by omega)
  rw [← htext] at hv
  rw [hv, hdot, bind_some, pton6Finish]
  rfl

theorem fillGap_append {p q : Bytes} {n : Nat} (h : p.length + n + q.length = 16) (hn : 0 < n) :
    fillGap (some p.length) (p ++ q) = some (p ++ replicate n 0 ++ q) := by
  have hlen : (p ++ q).length < 16 := by
    rw [length_append]
    omega
  have hzeros : 16 - (p ++ q).length = n := by
    rw [length_append]
    omega
  rw [fillGap]
  simp only [hlen, if_true, hzeros, take_left, drop_left]

theorem length_flatMap_wordBytes (ws : List Nat) : (ws.flatMap wordBytes).length = 2 * ws.length := by
  induction ws with
  | nil => rfl
  | cons w ws ih =>
    rw [flatMap_cons, length_append, ih, length_cons]
    simp only [wordBytes, length_cons, length_nil]
    omega

theorem flatMap_replicate_zero : ∀ n : Nat, (replicate n 0).flatMap wordBytes = replicate (2 * n) 0
  | 0 => rfl
  | n + 1 => by
    rw [replicate_succ, flatMap_cons, flatMap_replicate_zero n,
      show 2 * (n + 1) = 2 * n + 1 + 1 from by omega, replicate_succ, replicate_succ]
    rfl

theorem inetPton6_gap {p q : List Nat} {n : Nat} (hp : ∀ w ∈ p, w < 65536)
    (hq : ∀ w ∈ q, w < 65536) (hlen : p.length + n + q.length = 8) (hn : 0 < n) :
    inetPton6 (joinHex p ++ [58, 58] ++ joinHex q) =
      some ((p ++ replicate n 0 ++ q).flatMap wordBytes) := by
  have hpq : (p.flatMap wordBytes).length + 2 * n + (q.flatMap wordBytes).length = 16 := by
    rw [length_flatMap_wordBytes, length_flatMap_wordBytes]
    omega
  have hend : ∀ tok, (pton6Loop ⟨p.flatMap wordBytes, none, 0, 0, tok⟩ (58 :: joinHex q)).bind
      pton6Finish = some ((p ++ replicate n 0 ++ q).flatMap wordBytes) := by
    intro tok
    rw [pton6Loop_gap, pton6End_joinHex hq (by rw [length_flatMap_wordBytes]; omega),
      fillGap_append hpq (by omega), flatMap_append, flatMap_append,
      flatMap_replicate_zero]
  cases p with
  | nil => exact hend _
  | cons w p =>
    have htext : joinHex (w :: p) ++ [58, 58] ++ joinHex q =
        (w :: p).flatMap (fun w => hexNat w ++ [58]) ++ 58 :: joinHex q := by
      rw [← joinHex_append_colon (by simp), append_assoc]
      rfl
    have hstart : pton6Start ((w :: p).flatMap (fun w => hexNat w ++ [58]) ++ 58 :: joinHex q) =
        some ((w :: p).flatMap (fun w => hexNat w ++ [58]) ++ 58 :: joinHex q) := by
      rw [flatMap_cons, append_assoc, append_assoc]
      exact pton6Start_hexNat w _
    have hrest : 58 :: joinHex q ≠ [] := cons_ne_nil _ _
    obtain ⟨tok, htok⟩ := pton6Loop_groups none hrest (w :: p) []
      ((w :: p).flatMap (fun w => hexNat w ++ [58]) ++ 58 :: joinHex q) hp
      (by simp at hlen ⊢; omega)
    rw [inetPton6, htext, hstart, bind_some, htok]
    exact hend tok

/-- **IPv6 の番地は書いて読み戻せる。** -/
theorem inetPton6_inetNtop6 (h : a.length = 16) : inetPton6 (inetNtop6 a) = some a := by
  obtain ⟨hflat, hlen, hlt⟩ := flatMap_wordBytes_words (n := 8) h
  rw [inetNtop6]
  cases hr : bestRun (words a) with
  | none =>
    have hne : words a ≠ [] := ne_nil_of_length_eq_add_one hlen
    have hstart : pton6Start (joinHex (words a)) = some (joinHex (words a)) := by
      obtain ⟨w, ws, hws⟩ := exists_cons_of_ne_nil hne
      rw [hws]
      cases ws with
      | nil => rw [hws] at hlen; cases hlen
      | cons x ws => exact pton6Start_hexNat w _
    rw [inetPton6, hstart, bind_some, pton6End_joinHex hlt (by simp [hlen]), hflat]
    exact if_pos h
  | some r =>
    obtain ⟨⟨p, q, hws, hbase⟩, hn⟩ := bestRun_in hr
    have ha : a = p.flatMap wordBytes ++ replicate (2 * r.len) 0 ++ q.flatMap wordBytes := by
      rw [← flatMap_replicate_zero, ← flatMap_append, ← flatMap_append, ← hws, hflat]
    have htail : (a.drop 12).length = 4 := by rw [length_drop, h]
    simp only
    split
    · -- 先頭に 6 つの 0
      rename_i hrun
      subst hrun
      rw [length_eq_zero_iff.mp hbase] at ha
      have hdrop : a = [] ++ replicate 12 0 ++ a.drop 12 := by
        rw [ha]
        rfl
      have hfill := fillGap_append (p := []) (q := a.drop 12) (n := 12) (by simp [htail]) (by simp)
      rw [inetPton6_leading, pton6End_inetNtop4 htail (by simp)]
      exact hfill.trans (congrArg some hdrop.symm)
    split
    · -- 5 つの 0 と ffff
      rename_i hrun
      obtain ⟨rfl, hffff⟩ := hrun
      rw [length_eq_zero_iff.mp hbase] at ha hws
      have hq : ∃ q', q = 65535 :: q' := by
        cases q with
        | nil => simp [hws] at hffff
        | cons w q =>
          rw [hws] at hffff
          exact ⟨q, by simpa using hffff⟩
      obtain ⟨q', rfl⟩ := hq
      have hdrop : a = [] ++ replicate 10 0 ++ (wordBytes 65535 ++ a.drop 12) := by
        rw [ha]
        rfl
      have hfill := fillGap_append (p := []) (q := wordBytes 65535 ++ a.drop 12) (n := 10)
        (by simp [htail, wordBytes]) (by simp)
      have hne : inetNtop4 (a.drop 12) ≠ [] := inetNtop4_ne_nil htail
      rw [append_assoc, append_assoc, inetPton6_leading, singleton_append,
        pton6Loop_group (by decide) hne (by simp), pton6End_inetNtop4 htail (by simp [wordBytes])]
      exact hfill.trans (congrArg some hdrop.symm)
    · rw [hws] at hlen hlt ⊢
      simp only [length_append, length_replicate] at hlen
      have htake : (p ++ replicate r.len 0 ++ q).take r.base = p := by
        rw [← hbase, append_assoc, take_left]
      have hdrop : (p ++ replicate r.len 0 ++ q).drop (r.base + r.len) = q := by
        rw [← hbase]
        exact drop_left' (by simp)
      rw [htake, hdrop, inetPton6_gap (fun w hw => hlt w (by simp [hw]))
        (fun w hw => hlt w (by simp [hw])) hlen (by omega), ← hws, hflat]

/-! ## 読んだ番地の幅 -/

theorem length_of_mapM {α β : Type} {f : α → Option β} : ∀ {l : List α} {r : List β},
    l.mapM f = some r → r.length = l.length
  | [], r, h => by
    cases h
    rfl
  | a :: l, r, h => by
    rw [mapM_cons] at h
    obtain ⟨b, -, h⟩ := bind_eq_some_iff.mp h
    obtain ⟨bs, hbs, h⟩ := bind_eq_some_iff.mp h
    rw [Option.pure_def, some.injEq] at h
    rw [← h, length_cons, length_cons, length_of_mapM hbs]

theorem length_of_inetPton4 (h : inetPton4 s = some b) : b.length = 4 := by
  rw [inetPton4] at h
  split at h
  · rename_i hlen
    rw [length_of_mapM h, hlen]
  · cases h

theorem length_of_fillGap (h : fillGap gap out = some b) : b.length = 16 := by
  unfold fillGap at h
  split at h
  · split at h
    · cases h
      assumption
    · cases h
  split at h
  · cases h
    simp only [length_append, length_take, length_replicate, length_drop]
    omega
  · cases h

theorem length_of_inetPton6 (h : inetPton6 s = some b) : b.length = 16 := by
  obtain ⟨s, -, h⟩ := bind_eq_some_iff.mp h
  obtain ⟨st, -, h⟩ := bind_eq_some_iff.mp h
  rw [pton6Finish] at h
  split at h
  · split at h
    · cases h
    · exact length_of_fillGap h
  · exact length_of_fillGap h

/-! ## 現れる文字 -/

section

variable {P : UInt8 → Prop} (hdigit : ∀ c, isDigit c = true → P c) (hhex : ∀ n < 16, P (hexChar n))
  (hcolon : P 58) (hdot : P 46)

include hdigit hdot in
theorem forall_mem_inetNtop4 {a : Bytes} {c : UInt8} (h : c ∈ inetNtop4 a) : P c := by
  rcases inetNtop4_byte h with rfl | h
  · exact hdot
  · exact hdigit c h

include hhex hcolon in
theorem forall_mem_joinHex {c : UInt8} {ws : List Nat} (h : c ∈ joinHex ws) : P c := by
  refine forall_mem_intercalate hcolon (fun l hl b hb => ?_) c h
  obtain ⟨w, -, rfl⟩ := mem_map.mp hl
  exact forall_mem_hexNat hhex hb

include hdigit hhex hcolon hdot in
theorem forall_mem_inetNtop6 {a : Bytes} {c : UInt8} (h : c ∈ inetNtop6 a) : P c := by
  have hgap : ∀ {c : UInt8}, c ∈ [58, 58] → P c := by
    intro c hc
    have : c = 58 := by simpa using hc
    exact this ▸ hcolon
  rw [inetNtop6] at h
  cases hr : bestRun (words a) with
  | none =>
    rw [hr] at h
    exact forall_mem_joinHex hhex hcolon h
  | some r =>
    rw [hr] at h
    simp only at h
    split at h
    · rcases mem_append.mp h with h | h
      · exact hgap h
      · exact forall_mem_inetNtop4 hdigit hdot h
    split at h
    · simp only [mem_append] at h
      rcases h with ((h | h) | h) | h
      · exact hgap h
      · exact forall_mem_hexNat hhex h
      · exact hgap (mem_cons_of_mem _ h)
      · exact forall_mem_inetNtop4 hdigit hdot h
    · simp only [mem_append] at h
      rcases h with (h | h) | h
      · exact forall_mem_joinHex hhex hcolon h
      · exact hgap h
      · exact forall_mem_joinHex hhex hcolon h

end

/-- 番地の文字列に現れる文字 -/
def isInetChar (c : UInt8) : Bool := (hexVal c).isSome || c == 58 || c == 46

theorem isInetChar_of_isDigit (c : UInt8) (h : isDigit c = true) : isInetChar c = true := by
  simp [isInetChar, hexVal_of_isDigit h]

theorem isInetChar_of_mem_inetNtop4 (h : c ∈ inetNtop4 a) : isInetChar c = true :=
  forall_mem_inetNtop4 isInetChar_of_isDigit (by decide) h

end Redcurrant.Infra
