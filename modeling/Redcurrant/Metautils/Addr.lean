import Redcurrant.Infra.Inet
import Redcurrant.Metautils.Service

/-!
# 番地の読み書き

`metautils/lib/utils_resolv.c`。番地は `IP:PORT` か `[IP]:PORT` と書かれ（`addrText`）、buffer の大きさに切り詰められる。
-/

namespace Redcurrant.Metautils

open Infra List Option

/-! ## 読み書き -/

/-- `union ip_addr_u` のうち、型の使う byte の数 -/
def AddrType.size : AddrType → Nat
  | .v4 => 4
  | .v6 => 16

structure AddrInfo.Wf (a : AddrInfo) : Prop where
  length_eq : a.addr.length = a.type.size
  port_lt : a.port < 65536

instance (a : AddrInfo) : Decidable a.Wf :=
  decidable_of_iff (a.addr.length = a.type.size ∧ a.port < 65536)
    ⟨fun h => ⟨h.1, h.2⟩, fun h => ⟨h.length_eq, h.port_lt⟩⟩

/-- port の前の部分 -/
def ipText (type : AddrType) (addr : Bytes) : Bytes :=
  match type with
  | .v4 => inetNtop4 addr
  | .v6 => 91 :: (inetNtop6 addr ++ [93])

/-- `grid_addrinfo_to_string` の、切り詰める前の文字列 -/
def addrText (a : AddrInfo) : Bytes := ipText a.type a.addr ++ 58 :: decNat a.port

def gridAddrinfoToString (a : AddrInfo) (dstSize : Nat) : Bytes := (addrText a).take (dstSize - 1)

def portParse (einval : Bool) (s : Bytes) : Option Nat :=
  if !s.head?.any isDigit then none
  else
    let u64port := min (digitsVal s) (2 ^ 64 - 1)
    if u64port = 0 ∧ einval = true then none
    else if 65535 ≤ u64port then none
    else if !(s.dropWhile isDigit).isEmpty then none
    else some u64port

/-- 番地の部分を読む。`[` で始まれば IPv6。 -/
def ipParse (s : Bytes) : Option (AddrType × Bytes) :=
  if s.head? = some 91 then
    (inetPton6 (if s.getLast? = some 93 then s.dropLast.tail else s.tail)).map fun b => (.v6, b)
  else (inetPton4 s).map fun b => (.v4, b)

/-- `grid_string_to_addrinfo`。`einval` は呼ばれる前の `errno` が `EINVAL` であること。 -/
def gridStringToAddrinfo (einval : Bool) (s : Bytes) : Option AddrInfo :=
  (splitAtLast 58 s).bind fun p =>
    if p.1.isEmpty || p.2.isEmpty then none
    else
      (portParse einval p.2).bind fun port =>
        (ipParse (p.1.take 255)).map fun ip => ⟨ip.1, ip.2, port, 0⟩

/-! ## 番地の部分の読み戻し -/

theorem length_inetNtop4_le {a : Bytes} : (inetNtop4 a).length ≤ 4 * a.length := by
  have h := @length_intercalate_le 46 (a.map fun b => decNat b.toNat) 3
    (forall_mem_map.mpr fun b _ => length_decNat_le b.toNat (UInt8.toNat_lt_size b))
  rwa [length_map] at h

theorem length_joinHex_le (ws : List Nat) (hws : ∀ w ∈ ws, w < 65536) :
    (joinHex ws).length ≤ 5 * ws.length := by
  have h := @length_intercalate_le 58 (ws.map hexNat) 4
    (forall_mem_map.mpr fun w hw => length_hexNat_le (k := 3) (hws w hw))
  rwa [length_map] at h

theorem length_inetNtop6_le {a : Bytes} (h : a.length = 16) : (inetNtop6 a).length ≤ 100 := by
  obtain ⟨-, hlen, hlt⟩ := flatMap_wordBytes_words (n := 8) h
  have htail : (inetNtop4 (a.drop 12)).length ≤ 16 := by
    have := length_inetNtop4_le (a := a.drop 12)
    rwa [length_drop, h] at this
  rw [inetNtop6]
  cases hr : bestRun (words a) with
  | none =>
    have := length_joinHex_le _ hlt
    simp only
    omega
  | some r =>
    have hffff : (hexNat 65535).length ≤ 3 + 1 := length_hexNat_le (by decide)
    have htake := length_joinHex_le ((words a).take r.base) fun w hw => hlt w (mem_of_mem_take hw)
    have hdrop := length_joinHex_le ((words a).drop (r.base + r.len))
      fun w hw => hlt w (mem_of_mem_drop hw)
    rw [length_take] at htake
    rw [length_drop] at hdrop
    simp only
    split
    · simp only [length_append, length_cons, length_nil]
      omega
    split
    · simp only [length_append, length_cons, length_nil]
      omega
    · simp only [length_append, length_cons, length_nil]
      omega

variable {type : AddrType} {addr s : Bytes} {einval : Bool} {a b : AddrInfo}

theorem length_ipText_le (h : addr.length = type.size) : (ipText type addr).length ≤ 255 := by
  cases type with
  | v4 =>
    have := length_inetNtop4_le (a := addr)
    rw [h] at this
    exact this.trans (by decide)
  | v6 =>
    have := length_inetNtop6_le (a := addr) h
    simp only [ipText, length_cons, length_append, length_nil]
    omega

theorem ipParse_ipText (h : addr.length = type.size) :
    ipParse (ipText type addr) = some (type, addr) := by
  cases type with
  | v4 =>
    have hhead : (inetNtop4 addr).head? ≠ some 91 := by
      intro he
      have := isInetChar_of_mem_inetNtop4 (mem_of_mem_head? he)
      cases this
    rw [ipText, ipParse, if_neg hhead, inetPton4_inetNtop4 h]
    rfl
  | v6 =>
    have hlast : (91 :: (inetNtop6 addr ++ [93])).getLast? = some 93 := by
      rw [← cons_append, List.getLast?_concat]
    have hbody : (91 :: (inetNtop6 addr ++ [93])).dropLast.tail = inetNtop6 addr := by
      rw [← cons_append, dropLast_concat]
      rfl
    rw [ipText, ipParse, if_pos hlast, hbody, inetPton6_inetNtop6 h]
    rfl

theorem ipText_ne_nil (h : addr.length = type.size) : ipText type addr ≠ [] := by
  cases type with
  | v4 => exact inetNtop4_ne_nil h
  | v6 => simp [ipText]

/-! ## port の読み戻し -/

/-- 読み戻せる port -/
def readablePort (einval : Bool) (port : Nat) : Bool := port != 65535 && !(port == 0 && einval)

theorem portParse_decNat {n : Nat} (hn : n < 65536) :
    portParse einval (decNat n) = if readablePort einval n then some n else none := by
  have hval : digitsVal (decNat n) = n := by
    have hnil : digitsVal (decNat n ++ []) = n := digitsVal_decNat n (by simp)
    rwa [append_nil] at hnil
  have hhead : (decNat n).head?.any isDigit = true := by
    cases hd : decNat n with
    | nil => exact absurd hd (decNat_ne_nil n)
    | cons b t =>
      have hb : isDigit b = true := decNat_isDigit n b (by rw [hd]; simp)
      simpa using hb
  have hdrop : (decNat n).dropWhile isDigit = [] := dropWhile_eq_nil_iff.mpr (decNat_isDigit n)
  have hmin : min n (2 ^ 64 - 1) = n := by omega
  rw [portParse, hhead, hval, hdrop]
  simp only [hmin, Bool.not_true, Bool.false_eq_true, if_false, isEmpty_nil]
  unfold readablePort
  cases einval <;> by_cases h0 : n = 0 <;> by_cases hmax : n = 65535 <;> simp_all <;> omega

/-! ## 番地の読み戻し -/

theorem colon_notMem_decNat (n : Nat) : 58 ∉ decNat n := by
  intro h
  have := decNat_isDigit n 58 h
  revert this
  decide

theorem splitAtLast_addrText (a : AddrInfo) :
    splitAtLast 58 (addrText a) = some (ipText a.type a.addr, decNat a.port) :=
  splitAtLast_append (colon_notMem_decNat a.port)

/-- **切り詰めずに書いた番地は port が読めれば読み戻せる。** protocol は 0 になる。 -/
theorem gridStringToAddrinfo_addrText (h : a.Wf) : gridStringToAddrinfo einval (addrText a) =
    if readablePort einval a.port then some { a with protocol := 0 } else none := by
  have hip : (ipText a.type a.addr).isEmpty = false := by simpa using ipText_ne_nil h.length_eq
  have hport : (decNat a.port).isEmpty = false := by simpa using decNat_ne_nil a.port
  rw [gridStringToAddrinfo, splitAtLast_addrText, bind_some]
  simp only [hip, hport, Bool.or_self, Bool.false_eq_true, if_false, portParse_decNat h.port_lt,
    take_of_length_le (length_ipText_le h.length_eq), ipParse_ipText h.length_eq]
  cases readablePort einval a.port <;> rfl

/-- **書いた番地が読み戻せるのは port が 65535 でなく、0 なら `errno` が `EINVAL` でなかったとき。** -/
theorem key_toString_iff (h : a.Wf) {dstSize : Nat}
    (hsize : (addrText a).length < dstSize) :
    (gridStringToAddrinfo einval (gridAddrinfoToString a dstSize)).map AddrInfo.key =
      some a.key ↔ a.port ≠ 65535 ∧ ¬ (a.port = 0 ∧ einval = true) := by
  have hport : readablePort einval a.port = true ↔
      a.port ≠ 65535 ∧ ¬ (a.port = 0 ∧ einval = true) := by
    simp [readablePort, imp_iff_not_or]
  rw [gridAddrinfoToString, take_of_length_le (by omega), gridStringToAddrinfo_addrText h, ← hport]
  split
  · rename_i hread
    exact iff_of_true rfl hread
  · rename_i hread
    exact iff_of_false nofun hread

theorem key_toString_localhost :
    (gridStringToAddrinfo true (gridAddrinfoToString ⟨.v4, [127, 0, 0, 1], 6000, 6⟩ 48)).map
      AddrInfo.key = some (AddrInfo.key ⟨.v4, [127, 0, 0, 1], 6000, 6⟩) :=
  (key_toString_iff (by decide) (by decide)).mpr (by decide)

/-- `127.0.0.1:65535` は書けるが、読めない -/
theorem toString_port_max :
    gridStringToAddrinfo false (gridAddrinfoToString ⟨.v4, [127, 0, 0, 1], 65535, 0⟩ 48) = none := by
  decide

/-- **書いた文字列は番地を決める。** -/
theorem key_eq_of_addrText_eq (ha : a.Wf) (hb : b.Wf) (h : addrText a = addrText b) :
    a.key = b.key := by
  have hsplit := splitAtLast_addrText a
  rw [h, splitAtLast_addrText, some.injEq, Prod.mk.injEq] at hsplit
  have hport : a.port = b.port := by
    rw [← foldl_decNat a.port, ← foldl_decNat b.port, hsplit.2]
  have hip := ipParse_ipText ha.length_eq
  rw [← hsplit.1, ipParse_ipText hb.length_eq, some.injEq, Prod.mk.injEq] at hip
  rw [AddrInfo.key, AddrInfo.key, hport, hip.1, hip.2]

theorem addrText_eq_of_key_eq (h : a.key = b.key) : addrText a = addrText b := by
  simp only [AddrInfo.key, Prod.mk.injEq] at h
  rw [addrText, addrText, h.1, h.2.1, h.2.2]

/-! ## 文字列に現れる文字 -/

section

variable {P : UInt8 → Prop} (hdigit : ∀ c, isDigit c = true → P c) (hhex : ∀ n < 16, P (hexChar n))
  (hcolon : P 58) (hdot : P 46) (hopen : P 91) (hclose : P 93)

include hdigit hhex hcolon hdot hopen hclose in
theorem forall_mem_addrText {a : AddrInfo} {c : UInt8} (h : c ∈ addrText a) : P c := by
  have hip : c ∈ ipText a.type a.addr → P c := by
    intro h
    cases ht : a.type with
    | v4 =>
      rw [ht] at h
      exact forall_mem_inetNtop4 hdigit hdot h
    | v6 =>
      rw [ht, ipText, mem_cons, mem_append, mem_singleton] at h
      rcases h with rfl | h | rfl
      · exact hopen
      · exact forall_mem_inetNtop6 hdigit hhex hcolon hdot h
      · exact hclose
  rcases mem_append.mp h with h | h
  · exact hip h
  rcases mem_cons.mp h with rfl | h
  · exact hcolon
  · exact hdigit c (decNat_isDigit a.port c h)

end

theorem comma_notMem_addrText (a : AddrInfo) : 44 ∉ addrText a := by
  intro h
  refine forall_mem_addrText (P := fun c => c ≠ 44) ?_ (by decide) (by decide) (by decide)
    (by decide) (by decide) h rfl
  rintro c hc rfl
  revert hc
  decide

theorem addrText_ne_nil (a : AddrInfo) : addrText a ≠ [] := by simp [addrText]

/-! ## 読んだ番地 -/

theorem length_of_ipParse {ip : AddrType × Bytes} (h : ipParse s = some ip) :
    ip.2.length = ip.1.size := by
  rw [ipParse] at h
  split at h
  · obtain ⟨b, hb, rfl⟩ := map_eq_some_iff.mp h
    exact length_of_inetPton6 hb
  · obtain ⟨b, hb, rfl⟩ := map_eq_some_iff.mp h
    exact length_of_inetPton4 hb

theorem portParse_lt {port : Nat} (h : portParse einval s = some port) : port < 65535 := by
  rw [portParse] at h
  simp only at h
  repeat' split at h
  all_goals first
    | cases h; omega
    | cases h

/-- **読んだ番地は幅が合い、port は 65535 でなく、protocol は 0。** -/
theorem wf_of_gridStringToAddrinfo (h : gridStringToAddrinfo einval s = some a) :
    a.Wf ∧ a.port ≠ 65535 ∧ a.protocol = 0 := by
  obtain ⟨p, -, h⟩ := bind_eq_some_iff.mp h
  split at h
  · cases h
  obtain ⟨port, hport, h⟩ := bind_eq_some_iff.mp h
  obtain ⟨ip, hip, rfl⟩ := map_eq_some_iff.mp h
  have hlt := portParse_lt hport
  exact ⟨⟨length_of_ipParse hip, by simp only; omega⟩, by simp only; omega, rfl⟩

theorem gridStringToAddrinfo_mono (h : gridStringToAddrinfo true s = some a) :
    gridStringToAddrinfo false s = some a := by
  obtain ⟨p, hp, h⟩ := bind_eq_some_iff.mp h
  rw [gridStringToAddrinfo, hp, bind_some]
  split at h
  · cases h
  rename_i hne
  obtain ⟨port, hport, h⟩ := bind_eq_some_iff.mp h
  have hfalse : portParse false p.2 = some port := by
    rw [portParse] at hport ⊢
    simp only at hport ⊢
    split at hport
    · cases hport
    split at hport
    · cases hport
    rename_i hd h0
    rw [if_neg hd, if_neg (by simp)]
    exact hport
  rw [if_neg hne, hfalse]
  exact h

end Redcurrant.Metautils
