import Redcurrant.Metautils.Acl

/-!
# ACL の行の形

ACL の行は `host A`、`A/len allow|deny`、`A mask allow|deny` のいずれかである。
-/

namespace Redcurrant.Metautils

open Infra List Option

/-! ## 点で区切った番地 -/

def octetOf (s : Bytes) : Option (BitVec 8) :=
  if 1 ≤ s.length ∧ s.length ≤ 3 ∧ s.all isDigit ∧ digitsVal s ≤ 255
  then some (BitVec.ofNat 8 (digitsVal s)) else none

/-- 点で区切った 4 つの値 -/
def dotted (s : Bytes) : Option (BitVec 32) :=
  match (s.splitOn 46).mapM octetOf with
  | some [a, b, c, d] => some (a ++ b ++ c ++ d)
  | _ => none

/-- 点で区切った番地の文字列 -/
structure Dotted where
  text : Bytes
  value : BitVec 32
  reads : dotted text = some value

structure MaskLen where
  text : Bytes
  pos : 1 ≤ text.length
  short : text.length ≤ 2
  digits : text.all isDigit = true
  le : digitsVal text ≤ 32

/-! ## 行 -/

inductive AclLine
  | host (a : Dotted)
  | range (a : Dotted) (len : MaskLen) (allow : Bool)
  | mask (a m : Dotted) (allow : Bool)

def verdictWord (allow : Bool) : Bytes := if allow then ascii "allow" else ascii "deny"

def AclLine.render : AclLine → Bytes
  | .host a => [32].intercalate [ascii "host", a.text]
  | .range a len allow => [32].intercalate [[47].intercalate [a.text, len.text], verdictWord allow]
  | .mask a m allow => [32].intercalate [a.text, m.text, verdictWord allow]

/-- 行の network に入る番地 -/
def AclLine.contains (x : BitVec 32) : AclLine → Bool
  | .host a => x == a.value
  | .range a len _ => x >>> (32 - digitsVal len.text) == a.value >>> (32 - digitsVal len.text)
  | .mask a m _ => x &&& m.value == a.value &&& m.value

def AclLine.allows : AclLine → Bool
  | .host _ => true
  | .range _ _ allow => allow
  | .mask _ _ allow => allow

def AclLine.isMask : AclLine → Bool
  | .mask _ _ _ => true
  | _ => false

/-- 番地を含む最初の行が決め、無ければ拒む -/
def aclSpec (lines : List AclLine) (x : BitVec 32) : Bool :=
  match lines.find? (AclLine.contains x) with
  | some line => line.allows
  | none => false

/-! ## 数の列 -/

section

variable {s t : Bytes} {ts ns as ms : List Bytes} {o : BitVec 8} {os : List (BitVec 8)}
  {n a m : BitVec 32}

theorem octetOf_some (h : octetOf t = some o) :
    1 ≤ t.length ∧ t.length ≤ 3 ∧ (∀ b ∈ t, isDigit b = true) ∧ strtoll t = o.toNat := by
  unfold octetOf at h
  split at h
  · rename_i hok
    obtain ⟨hpos, hlen, hdigits, hle⟩ := hok
    cases h
    have hall : ∀ b ∈ t, isDigit b = true := all_eq_true.mp hdigits
    refine ⟨hpos, hlen, hall, ?_⟩
    obtain ⟨b, t, rfl⟩ := exists_cons_of_length_pos hpos
    rw [strtoll_of_digit (hall b mem_cons_self), BitVec.toNat_ofNat]
    omega
  · cases h

theorem tokens_of_dotted (h : dotted s = some a) : ∃ o0 o1 o2 o3,
    (s.splitOn 46).mapM octetOf = some [o0, o1, o2, o3] ∧ a = o0 ++ o1 ++ o2 ++ o3 := by
  unfold dotted at h
  split at h
  · rename_i o0 o1 o2 o3 htokens
    exact ⟨o0, o1, o2, o3, htokens, (some.inj h).symm⟩
  · cases h

theorem dotTokens_of_mapM (h : (s.splitOn 46).mapM octetOf = some os) (hlen : os.length = 4) :
    dotTokens (some s) = s.splitOn 46 := by
  have hlen' := length_of_mapM h
  refine strsplit_eq_splitOn ?_ (.inr (by omega))
  rintro rfl
  rw [hlen] at hlen'
  cases hlen'

theorem tokenAt_of_mapM : ∀ {ts : List Bytes} {os : List (BitVec 8)} {i : Nat},
    ts.mapM octetOf = some os → os[i]? = some o → tokenAt ts i = some (o.toNat : Int)
  | [], os, i, h, hi => by
    cases h
    cases hi
  | t :: ts, os, i, h, hi => by
    rw [mapM_cons] at h
    obtain ⟨o', ho', h⟩ := bind_eq_some_iff.mp h
    obtain ⟨os', hos', h⟩ := bind_eq_some_iff.mp h
    cases h
    cases i with
    | zero =>
      cases hi
      exact congrArg some (octetOf_some ho').2.2.2
    | succ i =>
      have ih := tokenAt_of_mapM hos' hi
      unfold tokenAt at ih ⊢
      simpa using ih

theorem and64_octet (x y : BitVec 8) :
    and64 (x.toNat : Int) (y.toNat : Int) = (x &&& y).setWidth 64 := by
  rw [and64, BitVec.ofInt_natCast, BitVec.ofInt_natCast, BitVec.ofNat_toNat, BitVec.ofNat_toNat,
    BitVec.setWidth_and]

theorem setWidth_inj {x y : BitVec 8} : x.setWidth 64 = y.setWidth 64 ↔ x = y := by
  refine ⟨fun h => ?_, fun h => h ▸ rfl⟩
  have := congrArg BitVec.toNat h
  exact BitVec.eq_of_toNat_eq this

theorem append_inj {v w : Nat} {x x' : BitVec v} {y y' : BitVec w} :
    x ++ y = x' ++ y' ↔ x = x' ∧ y = y' := by
  refine ⟨fun h => ?_, fun h => h.1 ▸ h.2 ▸ rfl⟩
  constructor
  · refine BitVec.eq_of_getLsbD_eq fun i _ => ?_
    have := congrArg (BitVec.getLsbD · (i + w)) h
    simpa [BitVec.getLsbD_append] using this
  · refine BitVec.eq_of_getLsbD_eq fun i hi => ?_
    have := congrArg (BitVec.getLsbD · i) h
    simpa [BitVec.getLsbD_append, hi] using this

theorem and_octets (x0 x1 x2 x3 y0 y1 y2 y3 : BitVec 8) :
    ((x0 ++ x1 ++ x2 ++ x3 : BitVec 32) &&& (y0 ++ y1 ++ y2 ++ y3 : BitVec 32)) =
      ((x0 &&& y0) ++ (x1 &&& y1) ++ (x2 &&& y2) ++ (x3 &&& y3) : BitVec 32) := by
  refine BitVec.and_append.trans ?_
  rw [BitVec.and_append, BitVec.and_append]

theorem matchTokens_iff {s t u : Bytes} (hn : dotted s = some n) (ha : dotted t = some a)
    (hm : dotted u = some m) :
    matchTokens (dotTokens (some s)) (dotTokens (some t)) (dotTokens (some u)) [0, 1, 2, 3] =
      some (a &&& m == n &&& m) := by
  obtain ⟨n0, n1, n2, n3, hns, rfl⟩ := tokens_of_dotted hn
  obtain ⟨a0, a1, a2, a3, has, rfl⟩ := tokens_of_dotted ha
  obtain ⟨m0, m1, m2, m3, hms, rfl⟩ := tokens_of_dotted hm
  rw [dotTokens_of_mapM hns rfl, dotTokens_of_mapM has rfl, dotTokens_of_mapM hms rfl]
  have hstep : ∀ {i : Nat} {n a m : BitVec 8} {is : List Nat},
      [n0, n1, n2, n3][i]? = some n → [a0, a1, a2, a3][i]? = some a →
      [m0, m1, m2, m3][i]? = some m →
      matchTokens (s.splitOn 46) (t.splitOn 46) (u.splitOn 46) (i :: is) =
        if a &&& m = n &&& m then
          matchTokens (s.splitOn 46) (t.splitOn 46) (u.splitOn 46) is
        else some false := by
    intro i n a m is hn ha hm
    rw [matchTokens, tokenAt_of_mapM hns hn, tokenAt_of_mapM has ha, tokenAt_of_mapM hms hm]
    simp only [and64_octet, ne_eq, setWidth_inj]
    by_cases heq : a &&& m = n &&& m
    · rw [if_pos heq, if_neg (not_not.mpr heq.symm)]
    · rw [if_neg heq, if_pos (Ne.symm heq)]
  rw [hstep rfl rfl rfl, hstep rfl rfl rfl, hstep rfl rfl rfl, hstep rfl rfl rfl, matchTokens]
  have hagree : ((a0 ++ a1 ++ a2 ++ a3 : BitVec 32) &&& (m0 ++ m1 ++ m2 ++ m3 : BitVec 32) =
      (n0 ++ n1 ++ n2 ++ n3 : BitVec 32) &&& (m0 ++ m1 ++ m2 ++ m3 : BitVec 32)) ↔
      ((a0 &&& m0 = n0 &&& m0 ∧ a1 &&& m1 = n1 &&& m1) ∧ a2 &&& m2 = n2 &&& m2) ∧
        a3 &&& m3 = n3 &&& m3 := by
    rw [and_octets, and_octets]
    exact append_inj.trans (and_congr_left' (append_inj.trans (and_congr_left' append_inj)))
  by_cases h0 : a0 &&& m0 = n0 &&& m0 <;> by_cases h1 : a1 &&& m1 = n1 &&& m1 <;>
    by_cases h2 : a2 &&& m2 = n2 &&& m2 <;> by_cases h3 : a3 &&& m3 = n3 &&& m3 <;>
    simp [hagree, h0, h1, h2, h3]

theorem ruleMatch_dotted {authorize : Bool} (hn : dotted s = some n) (ha : dotted t = some a)
    {u : Bytes} (hm : dotted u = some m) :
    ruleMatch t ⟨some s, some u, authorize⟩ = some (a &&& m == n &&& m) := by
  have hlen : ∀ {s : Bytes} {x : BitVec 32}, dotted s = some x →
      (dotTokens (some s)).length = 4 := by
    intro s x h
    obtain ⟨o0, o1, o2, o3, hos, -⟩ := tokens_of_dotted h
    rw [dotTokens_of_mapM hos rfl, ← length_of_mapM hos]
    rfl
  unfold ruleMatch
  rw [if_neg (by rw [hlen hm, hlen hn]; decide), matchTokens_iff hn ha hm]

/-! ## 文字列 -/

/-- 1 桁から 3 桁の数の列 -/
def IsOctet (t : Bytes) : Prop := 1 ≤ t.length ∧ t.length ≤ 3 ∧ ∀ b ∈ t, isDigit b = true

section

variable (h : dotted s = some a)
include h

theorem text_of_dotted : ∃ t0 t1 t2 t3, (IsOctet t0 ∧ IsOctet t1 ∧ IsOctet t2 ∧ IsOctet t3) ∧
      s = t0 ++ 46 :: (t1 ++ 46 :: (t2 ++ 46 :: t3)) := by
  obtain ⟨o0, o1, o2, o3, hos, -⟩ := tokens_of_dotted h
  have hcons : ∀ {ts : List Bytes} {o : BitVec 8} {os : List (BitVec 8)},
      ts.mapM octetOf = some (o :: os) →
      ∃ t ts', ts = t :: ts' ∧ IsOctet t ∧ ts'.mapM octetOf = some os := by
    intro ts o os h
    cases ts with
    | nil => cases h
    | cons t ts =>
      rw [mapM_cons] at h
      obtain ⟨o', ho, h⟩ := bind_eq_some_iff.mp h
      obtain ⟨os', hos', h⟩ := bind_eq_some_iff.mp h
      cases h
      obtain ⟨hpos, hlen, hdigits, -⟩ := octetOf_some ho
      exact ⟨t, ts, rfl, ⟨hpos, hlen, hdigits⟩, hos'⟩
  obtain ⟨t0, ts, hts, h0, hos⟩ := hcons hos
  obtain ⟨t1, ts, rfl, h1, hos⟩ := hcons hos
  obtain ⟨t2, ts, rfl, h2, hos⟩ := hcons hos
  obtain ⟨t3, ts, rfl, h3, hos⟩ := hcons hos
  obtain rfl : ts = [] := length_eq_zero_iff.mp (length_of_mapM hos).symm
  refine ⟨t0, t1, t2, t3, ⟨h0, h1, h2, h3⟩, ?_⟩
  have hjoin : [46].intercalate (s.splitOn 46) = s := intercalate_splitOn 46
  rw [← hjoin, hts]
  simp

theorem mem_dotted {b : UInt8} (hb : b ∈ s) : isDigit b = true ∨ b = 46 := by
  obtain ⟨t0, t1, t2, t3, ⟨⟨-, -, h0⟩, ⟨-, -, h1⟩, ⟨-, -, h2⟩, ⟨-, -, h3⟩⟩, rfl⟩ := text_of_dotted h
  simp only [mem_append, mem_cons] at hb
  rcases hb with hb | rfl | hb | rfl | hb | rfl | hb
  · exact .inl (h0 b hb)
  · exact .inr rfl
  · exact .inl (h1 b hb)
  · exact .inr rfl
  · exact .inl (h2 b hb)
  · exact .inr rfl
  · exact .inl (h3 b hb)

theorem notMem_dotted {b : UInt8} (hdigit : isDigit b = false) (hdot : b ≠ 46) : b ∉ s := by
  intro hb
  rcases mem_dotted h hb with hb | hb
  · rw [hdigit] at hb
    cases hb
  · exact hdot hb

theorem length_dotted_le : s.length ≤ 15 := by
  obtain ⟨t0, t1, t2, t3, ⟨⟨-, h0, -⟩, ⟨-, h1, -⟩, ⟨-, h2, -⟩, ⟨-, h3, -⟩⟩, rfl⟩ := text_of_dotted h
  simp only [length_append, length_cons]
  omega

theorem head_dotted : ∃ b t, s = b :: t ∧ isDigit b = true := by
  obtain ⟨t0, t1, t2, t3, ⟨⟨hpos, -, h0⟩, -⟩, rfl⟩ := text_of_dotted h
  obtain ⟨b, t, rfl⟩ := exists_cons_of_length_pos hpos
  exact ⟨b, _, cons_append, h0 b mem_cons_self⟩

end

/-! ## network の形 -/

theorem isDigit_toNat {b : UInt8} (h : isDigit b = true) : 48 ≤ b.toNat ∧ b.toNat ≤ 57 := by
  simp only [isDigit, Bool.and_eq_true, decide_eq_true_eq, UInt8.le_iff_toNat_le] at h
  exact h

theorem rests_digits {lo hi : Nat} {rest : List Nat} (hlo : lo ≤ t.length) (hhi : t.length ≤ hi)
    (h : ∀ b ∈ t, isDigit b = true) :
    rest ∈ (regexDigit.rep lo hi).rests (t.map UInt8.toNat ++ rest) := by
  refine mem_rests_rep_chars (fun c hc => ?_) (by rwa [length_map]) (by rwa [length_map])
  obtain ⟨b, hb, rfl⟩ := mem_map.mp hc
  obtain ⟨hle, hge⟩ := isDigit_toNat (h b hb)
  rw [Bool.and_eq_true, decide_eq_true_eq, decide_eq_true_eq]
  exact ⟨hle, hge⟩

theorem search_range (a : Dotted) (len : MaskLen) :
    rangeRegex.search ([47].intercalate [a.text, len.text]) = true := by
  obtain ⟨t0, t1, t2, t3, ⟨h0, h1, h2, h3⟩, htext⟩ := text_of_dotted a.reads
  have hlen : ∀ b ∈ len.text, isDigit b = true := all_eq_true.mp len.digits
  have hjoin : [47].intercalate [a.text, len.text] = a.text ++ 47 :: len.text := by
    simp
  have hascii : ∀ b ∈ a.text ++ 47 :: len.text, b < 128 := by
    have hsmall : ∀ {b : UInt8}, isDigit b = true → b < 128 := fun {b} hb => by
      exact Nat.lt_of_le_of_lt (isDigit_toNat hb).2 (by decide)
    intro b hb
    rcases mem_append.mp hb with hb | hb
    · rcases mem_dotted a.reads hb with hb | rfl
      · exact hsmall hb
      · decide
    rcases mem_cons.mp hb with rfl | hb
    · decide
    · exact hsmall (hlen b hb)
  -- 1 つの数と、続く点
  have hgroup : ∀ {t : Bytes} {rest : List Nat}, IsOctet t →
      rest ∈ (Regex.seq (.rep regexDigit 1 3) (.chars fun c => !isNewline c)).rests
        (t.map UInt8.toNat ++ 46 :: rest) := fun ht =>
    mem_rests_seq (rests_digits ht.1 ht.2.1 ht.2.2) (mem_rests_chars (by decide))
  rw [hjoin]
  refine search_of_rests (u := []) hascii ?_
  rw [htext]
  simp only [map_append, map_cons, append_assoc, cons_append]
  have hlast : ([] : List Nat) ∈ (regexDigit.rep 1 2).rests (len.text.map UInt8.toNat) := by
    have : [] ∈ (regexDigit.rep 1 2).rests (len.text.map UInt8.toNat ++ []) :=
      rests_digits len.pos len.short hlen
    rwa [append_nil] at this
  exact mem_rests_seq (mem_rests_rep_succ (hgroup h0) (mem_rests_rep_succ (hgroup h1)
      (mem_rests_rep_succ (hgroup h2) (mem_rests_rep_zero 0))))
    (mem_rests_seq (rests_digits h3.1 h3.2.1 h3.2.2)
      (mem_rests_seq (mem_rests_chars (by decide)) hlast))

theorem netmask_of_le {len : Nat} (h : len < 33) : ∃ mask, netmask len = some mask ∧
    dotted ([46].intercalate (mask.map decNat)) = some (BitVec.allOnes 32 <<< (32 - len)) := by
  have hall : ∀ len < 33, (netmask ((len : Nat) : Int)).bind (fun mask =>
      dotted ([46].intercalate (mask.map decNat))) =
      some (BitVec.allOnes 32 <<< (32 - len)) := by decide
  obtain ⟨mask, hmask, hdotted⟩ := bind_eq_some_iff.mp (hall len h)
  exact ⟨mask, hmask, hdotted⟩

theorem and_allOnes_shiftLeft {k : Nat} :
    (a &&& BitVec.allOnes 32 <<< k = n &&& BitVec.allOnes 32 <<< k) ↔ a >>> k = n >>> k := by
  constructor
  · intro h
    refine BitVec.eq_of_getLsbD_eq fun i hi => ?_
    rw [BitVec.getLsbD_ushiftRight, BitVec.getLsbD_ushiftRight]
    by_cases hik : k + i < 32
    · have := congrArg (BitVec.getLsbD · (k + i)) h
      have hmask : (BitVec.allOnes 32 <<< k).getLsbD (k + i) = true := by
        rw [BitVec.getLsbD_shiftLeft, BitVec.getLsbD_allOnes]
        simp [hik, hi]
      simpa only [BitVec.getLsbD_and, hmask, Bool.and_true] using this
    · rw [BitVec.getLsbD_of_ge a _ (by omega), BitVec.getLsbD_of_ge n _ (by omega)]
  · intro h
    refine BitVec.eq_of_getLsbD_eq fun i hi => ?_
    rw [BitVec.getLsbD_and, BitVec.getLsbD_and]
    by_cases hik : i < k
    · simp [hik]
    have := congrArg (BitVec.getLsbD · (i - k)) h
    simp only [BitVec.getLsbD_ushiftRight, Nat.add_sub_cancel' (Nat.not_lt.mp hik)] at this
    rw [this]

theorem atoi_maskLen (len : MaskLen) : atoi len.text = (digitsVal len.text : Nat) := by
  obtain ⟨b, t, htext⟩ := exists_cons_of_length_pos len.pos
  have hdigit : isDigit b = true := all_eq_true.mp len.digits b (htext ▸ mem_cons_self)
  have hle := len.le
  rw [atoi, htext, strtoll_of_digit hdigit, ← htext, min_eq_left (by omega)]
  exact Int.bmod_eq_of_le (by omega) (by omega)

theorem range2netmask_range (a : Dotted) (len : MaskLen) : ∃ mask,
    range2netmask ([47].intercalate [a.text, len.text]) = some ([32].intercalate [a.text, mask]) ∧
    dotted mask = some (BitVec.allOnes 32 <<< (32 - digitsVal len.text)) := by
  obtain ⟨mask, hmask, hdotted⟩ := netmask_of_le (Nat.lt_succ_of_le len.le)
  refine ⟨_, ?_, hdotted⟩
  have hfree : ∀ l ∈ [a.text, len.text], 47 ∉ l := by
    intro l hl
    rcases mem_pair.mp hl with rfl | rfl
    · exact notMem_dotted a.reads (by decide) (by decide)
    intro h47
    have := all_eq_true.mp len.digits 47 h47
    cases this
  have hne : [47].intercalate [a.text, len.text] ≠ [] := by simp
  have hsplit : strsplit 47 2 ([47].intercalate [a.text, len.text]) = [a.text, len.text] :=
    strsplit_intercalate hfree (cons_ne_nil _ _) hne (.inr (Nat.le_refl 2))
  have hshort : ([32].intercalate [a.text, [46].intercalate (mask.map decNat)]).length ≤ 1023 := by
    have ha := length_dotted_le a.reads
    have hm := length_dotted_le hdotted
    generalize [46].intercalate (mask.map decNat) = text at hm ⊢
    simp only [intercalate, intersperse, flatten_cons, flatten_nil,
      length_append, length_singleton, length_nil]
    omega
  rw [range2netmask, hsplit]
  simp only [getD_cons_succ, getD_cons_zero]
  rw [atoi_maskLen, hmask, map_some]
  have hjoin : a.text ++ 32 :: [46].intercalate (mask.map decNat) =
      [32].intercalate [a.text, [46].intercalate (mask.map decNat)] := by
    simp
  rw [hjoin, take_of_length_le hshort]

/-! ## 行を読んだ規則 -/

theorem space_notMem_dotted (a : Dotted) : 32 ∉ a.text :=
  notMem_dotted a.reads (by decide) (by decide)

theorem space_notMem_verdictWord (allow : Bool) : 32 ∉ verdictWord allow := by
  cases allow <;> decide

theorem not_host {b : UInt8} (hb : isDigit b = true) (t : Bytes) :
    hasPrefix (b :: t) (ascii "host") = false := by
  have hne : b ≠ 104 := by
    rintro rfl
    cases hb
  change (104 == b && _) = false
  rw [beq_eq_false_iff_ne.mpr (Ne.symm hne), Bool.false_and]

theorem suffix_verdictWord (pre : Bytes) (allow : Bool) :
    (ascii "allow").isSuffixOf (pre ++ 32 :: verdictWord allow) = allow := by
  rw [isSuffixOf, reverse_append]
  cases allow <;> rfl

theorem parse_host (a : Dotted) : parseAclLine (AclLine.host a).render =
    some ⟨some a.text, some (ascii "255.255.255.255"), true⟩ := by
  have hfree : ∀ l ∈ [ascii "host", a.text], 32 ∉ l := by
    intro l hl
    rcases mem_pair.mp hl with rfl | rfl
    · decide
    · exact space_notMem_dotted a
  have hsplit : strsplit 32 2 ([32].intercalate [ascii "host", a.text]) = [ascii "host", a.text] :=
    strsplit_intercalate hfree (cons_ne_nil _ _) (by simp) (.inr (Nat.le_refl 2))
  rw [AclLine.render, parseAclLine, hsplit]
  rfl

theorem parse_mask (a m : Dotted) (allow : Bool) :
    parseAclLine (AclLine.mask a m allow).render = some ⟨some a.text, some m.text, false⟩ := by
  have hfree : ∀ l ∈ [a.text, m.text, verdictWord allow], 32 ∉ l := by
    intro l hl
    simp only [mem_cons, not_mem_nil, or_false] at hl
    rcases hl with rfl | rfl | rfl
    · exact space_notMem_dotted a
    · exact space_notMem_dotted m
    · exact space_notMem_verdictWord allow
  have hsplit : strsplit 32 0 ([32].intercalate [a.text, m.text, verdictWord allow]) =
      [a.text, m.text, verdictWord allow] :=
    strsplit_intercalate hfree (cons_ne_nil _ _) (by simp) (.inl rfl)
  obtain ⟨b, t, htext, hb⟩ := head_dotted a.reads
  have hhost : hasPrefix ([32].intercalate [a.text, m.text, verdictWord allow])
      (ascii "host") = false := by
    rw [htext]
    exact not_host hb _
  rw [AclLine.render, parseAclLine, hhost, hsplit]
  rfl

theorem parse_range (a : Dotted) (len : MaskLen) (allow : Bool) : ∃ mask,
    parseAclLine (AclLine.range a len allow).render = some ⟨some a.text, some mask, allow⟩ ∧
      dotted mask = some (BitVec.allOnes 32 <<< (32 - digitsVal len.text)) := by
  obtain ⟨mask, hrange, hmask⟩ := range2netmask_range a len
  refine ⟨mask, ?_, hmask⟩
  have hrender : (AclLine.range a len allow).render =
      [32].intercalate [[47].intercalate [a.text, len.text], verdictWord allow] := rfl
  generalize hline : (AclLine.range a len allow).render = line at hrender
  have hsplit : strsplit 32 0 line = [[47].intercalate [a.text, len.text], verdictWord allow] := by
    rw [hrender]
    refine strsplit_intercalate ?_ (cons_ne_nil _ _) (by simp) (.inl rfl)
    intro l hl
    rcases mem_pair.mp hl with rfl | rfl
    · intro h32
      simp only [intercalate, intersperse, flatten_cons, flatten_nil,
        append_nil, mem_append, mem_singleton] at h32
      rcases h32 with h32 | h32 | h32
      · exact space_notMem_dotted a h32
      · cases h32
      · have := all_eq_true.mp len.digits 32 h32
        cases this
    · exact space_notMem_verdictWord allow
  obtain ⟨b, t, htext, hb⟩ := head_dotted a.reads
  have hhost : hasPrefix line (ascii "host") = false := by
    rw [hrender, htext]
    exact not_host hb _
  have hsuffix : (ascii "allow").isSuffixOf line = allow := by
    have hjoin : line = [47].intercalate [a.text, len.text] ++ 32 :: verdictWord allow := by
      simp [hrender]
    rw [hjoin, suffix_verdictWord]
  have htmp : strsplit 32 2 ([32].intercalate [a.text, mask]) = [a.text, mask] := by
    refine strsplit_intercalate ?_ (cons_ne_nil _ _) (by simp) (.inr (Nat.le_refl 2))
    intro l hl
    rcases mem_pair.mp hl with rfl | rfl
    · exact space_notMem_dotted a
    · exact notMem_dotted hmask (by decide) (by decide)
  rw [parseAclLine, hhost, hsplit]
  simp only [length_cons, length_nil, getD_cons_zero]
  rw [search_range, hrange, hsuffix, map_some, htmp]
  rfl

end

/-! ## 行の決め方 -/

section

variable {acl addr line : Bytes} {lines : List AclLine} {x : BitVec 32}

theorem isSome_parse_render (l : AclLine) : (parseAclLine l.render).isSome = true := by
  cases l with
  | host a => rfl
  | range a len allow =>
    obtain ⟨mask, hparse, -⟩ := parse_range a len allow
    rw [hparse]
    rfl
  | mask a m allow => rw [parse_mask]; rfl

theorem lineVerdict_of_parse {s u : Bytes} {n m : BitVec 32} {authorize : Bool}
    (hparse : parseAclLine line = some ⟨some s, some u, authorize⟩) (hn : dotted s = some n)
    (hm : dotted u = some m) (haddr : dotted addr = some x) :
    lineVerdict addr line = some (if x &&& m = n &&& m then some authorize else none) := by
  rw [lineVerdict, hparse, bind_some, ruleMatch_dotted hn haddr hm]
  simp

/-- **正しい行は network に入る番地だけを決める。** mask の形の行は `allow` でも拒む。 -/
theorem lineVerdict_render (haddr : dotted addr = some x) (l : AclLine) :
    lineVerdict addr l.render =
      some (if l.contains x then some (l.allows && !l.isMask) else none) := by
  cases l with
  | host a =>
    have hmask : dotted (ascii "255.255.255.255") = some (BitVec.allOnes 32) := by decide
    rw [lineVerdict_of_parse (parse_host a) a.reads hmask haddr, BitVec.and_allOnes,
      BitVec.and_allOnes]
    simp [AclLine.contains, AclLine.allows, AclLine.isMask]
  | range a len allow =>
    obtain ⟨mask, hparse, hmask⟩ := parse_range a len allow
    rw [lineVerdict_of_parse hparse a.reads hmask haddr]
    simp only [and_allOnes_shiftLeft]
    simp [AclLine.contains, AclLine.allows, AclLine.isMask]
  | mask a m allow =>
    rw [lineVerdict_of_parse (parse_mask a m allow) a.reads m.reads haddr]
    simp [AclLine.contains, AclLine.isMask]

theorem decideLines_render (haddr : dotted addr = some x) :
    decideLines addr (lines.map AclLine.render) =
      some ((lines.find? (AclLine.contains x)).any fun l => l.allows && !l.isMask) := by
  induction lines with
  | nil => rfl
  | cons l lines ih =>
    rw [map_cons, decideLines, lineVerdict_render haddr, find?_cons]
    cases l.contains x with
    | true => rfl
    | false => exact ih

/-- **正しい行だけの text の決定。** 番地を含む最初の行で決まるのは、行があって mask の形の `allow` でないとき。 -/
theorem acl_first_line_iff (hlines : aclLines acl = lines.map AclLine.render)
    (haddr : dotted addr = some x) :
    aclDecision acl addr = some (aclSpec lines x) ↔
      lines ≠ [] ∧ ∀ line, lines.find? (AclLine.contains x) = some line →
        line.isMask = true → line.allows = false := by
  cases hnil : lines with
  | nil =>
    have hempty : aclDecision acl addr = some true := by
      rw [aclDecision, parseAclBytes, hlines, hnil]
      rfl
    rw [hempty]
    simp [aclSpec]
  | cons l rest =>
    rw [← hnil]
    have hne : lines ≠ [] := hnil ▸ cons_ne_nil l rest
    have hparse : ∀ line ∈ aclLines acl, (parseAclLine line).isSome = true := by
      rw [hlines]
      intro line hline
      obtain ⟨l, -, rfl⟩ := mem_map.mp hline
      exact isSome_parse_render l
    rw [aclDecision_eq (by rw [hlines]; simpa using hne) hparse, hlines,
      decideLines_render haddr, aclSpec]
    cases hfind : lines.find? (AclLine.contains x) with
    | none => simp [hne]
    | some line =>
      simp only [any_some, some.injEq, ne_eq, hne, not_false_eq_true, true_and, forall_eq']
      cases line.isMask <;> cases line.allows <;> decide

end

def tenNetwork : Dotted := ⟨ascii "10.0.0.0", 0x0A000000, by decide⟩

def tenMask : Dotted := ⟨ascii "255.0.0.0", 0xFF000000, by decide⟩

def eightBits : MaskLen := ⟨ascii "8", by decide, by decide, by decide, by decide⟩

theorem acl_first_line_range : aclDecision (ascii "10.0.0.0/8 allow\n") (ascii "10.1.2.3") =
    some (aclSpec [.range tenNetwork eightBits true] 0x0A010203) :=
  (acl_first_line_iff (by decide) (by decide)).mpr ⟨cons_ne_nil _ _, fun line hfind hmask => by
      have hline : AclLine.range tenNetwork eightBits true = line := some.inj hfind
      rw [← hline] at hmask
      cases hmask⟩

/-- mask の形の `allow` は許さない -/
theorem mask_allow_refused : aclLines (ascii "10.0.0.0 255.0.0.0 allow\n") =
      [AclLine.mask tenNetwork tenMask true].map AclLine.render ∧
    dotted (ascii "10.1.2.3") = some 0x0A010203 ∧
    aclSpec [.mask tenNetwork tenMask true] 0x0A010203 = true ∧
    aclDecision (ascii "10.0.0.0 255.0.0.0 allow\n") (ascii "10.1.2.3") = some false := by
  decide

/-! ## 正しくない行 -/

section

variable {acl addr line : Bytes}

/-- 行が正しい形で、番地を含み、許す -/
def AllowsAddr (addr line : Bytes) : Prop :=
  ∃ (l : AclLine) (x : BitVec 32), line = l.render ∧ dotted addr = some x ∧
    l.contains x = true ∧ l.allows = true

/-- 許された番地は正しい行に許されている -/
def AclSound (acl addr : Bytes) : Prop :=
  aclDecision acl addr = some true → ∃ line ∈ aclLines acl, AllowsAddr addr line

/-- 行が無いか、正しくない行が許す -/
def AclLeaks (acl addr : Bytes) : Prop :=
  (∀ line ∈ aclLines acl, (parseAclLine line).isSome = true) ∧
    (aclLines acl = [] ∨ ∃ line, decidingLine addr (aclLines acl) = some line ∧
      lineVerdict addr line = some (some true) ∧
      ¬ ((dotted addr).isSome = true ∧ ∃ l : AclLine, line = l.render))

theorem allowsAddr_of_verdict (hverdict : lineVerdict addr line = some (some true))
    (hright : (dotted addr).isSome = true ∧ ∃ l : AclLine, line = l.render) :
    AllowsAddr addr line := by
  obtain ⟨haddr, l, rfl⟩ := hright
  obtain ⟨x, haddr⟩ := isSome_iff_exists.mp haddr
  rw [lineVerdict_render haddr] at hverdict
  refine ⟨l, x, rfl, haddr, ?_⟩
  cases hin : l.contains x with
  | false =>
    rw [hin] at hverdict
    cases hverdict
  | true =>
    rw [hin] at hverdict
    have hgrant : (l.allows && !l.isMask) = true := some.inj (some.inj hverdict)
    exact ⟨rfl, (Bool.and_eq_true_iff.mp hgrant).1⟩

theorem isSome_of_parse : ∀ {lines : List Bytes} {rules : List AddrRule},
    lines.mapM parseAclLine = some rules → ∀ line ∈ lines, (parseAclLine line).isSome = true
  | [], _, _ => fun _ hline => absurd hline not_mem_nil
  | l :: lines, rules, h => by
    rw [mapM_cons] at h
    obtain ⟨rule, hrule, h⟩ := bind_eq_some_iff.mp h
    obtain ⟨rest, hrest, -⟩ := bind_eq_some_iff.mp h
    exact forall_mem_cons.mpr ⟨by rw [hrule]; rfl, isSome_of_parse hrest⟩

theorem aclDecision_true_iff : aclDecision acl addr = some true ↔
    (∀ line ∈ aclLines acl, (parseAclLine line).isSome = true) ∧
      (aclLines acl = [] ∨ ∃ line, decidingLine addr (aclLines acl) = some line ∧
        lineVerdict addr line = some (some true)) := by
  by_cases hparse : ∀ line ∈ aclLines acl, (parseAclLine line).isSome = true
  · by_cases hnil : aclLines acl = []
    · have hempty : aclDecision acl addr = some true := by
        rw [aclDecision, parseAclBytes, hnil]
        rfl
      exact ⟨fun _ => ⟨hparse, .inl hnil⟩, fun _ => hempty⟩
    · rw [aclDecision_eq hnil hparse, decideLines_true_iff]
      exact ⟨fun h => ⟨hparse, .inr h⟩, fun h => h.2.resolve_left hnil⟩
  · refine ⟨fun h => absurd ?_ hparse, fun h => absurd h.1 hparse⟩
    obtain ⟨rules, hrules, -⟩ := bind_eq_some_iff.mp h
    exact isSome_of_parse hrules

/-- **許可は正しい行によるか。** 正しくない行が許すのでなければ、番地を含む正しい行がある。 -/
theorem acl_sound_iff (acl addr : Bytes) : AclSound acl addr ↔
    (∃ line ∈ aclLines acl, AllowsAddr addr line) ∨ ¬ AclLeaks acl addr := by
  constructor
  · intro hsound
    by_cases hleaks : AclLeaks acl addr
    · refine .inl (hsound (aclDecision_true_iff.mpr ⟨hleaks.1, hleaks.2.imp_right ?_⟩))
      rintro ⟨line, hdecides, hverdict, -⟩
      exact ⟨line, hdecides, hverdict⟩
    · exact .inr hleaks
  · rintro (hallows | hleaks) hgranted
    · exact hallows
    obtain ⟨hparse, hnil | ⟨line, hdecides, hverdict⟩⟩ := aclDecision_true_iff.mp hgranted
    · exact absurd ⟨hparse, .inl hnil⟩ hleaks
    by_cases hright : (dotted addr).isSome = true ∧ ∃ l : AclLine, line = l.render
    · exact ⟨line, mem_of_find?_eq_some hdecides, allowsAddr_of_verdict hverdict hright⟩
    · exact absurd ⟨hparse, .inr ⟨line, hdecides, hverdict, hright⟩⟩ hleaks

/-- `host` の後が番地でない行はどの番地も許す -/
theorem host_name_allows_all : aclDecision (ascii "host localhost\n") (ascii "10.1.2.3") = some true ∧
    ¬ AclSound (ascii "host localhost\n") (ascii "10.1.2.3") := by
  have hgranted : aclDecision (ascii "host localhost\n") (ascii "10.1.2.3") = some true := by decide
  refine ⟨hgranted, fun hsound => ?_⟩
  obtain ⟨line, hline, l, x, rfl, -, -, -⟩ := hsound hgranted
  have hlines : aclLines (ascii "host localhost\n") = [ascii "host localhost"] := by decide
  rw [hlines, mem_singleton] at hline
  have hparse : parseAclLine (ascii "host localhost") =
      some ⟨some (ascii "localhost"), some (ascii "255.255.255.255"), true⟩ := by decide
  have hnone : dotted (ascii "localhost") = none := by decide
  -- 読んだ規則の番地は `localhost`
  have hcontra : ∀ (a : Dotted) {u : Bytes} {authorize : Bool},
      parseAclLine l.render = some ⟨some a.text, some u, authorize⟩ → False := by
    intro a u authorize h
    rw [hline] at h
    have htext : ascii "localhost" = a.text := by
      injection h with h
      injection h with h
      exact some.inj h
    have := a.reads
    rw [← htext] at this
    cases this
  cases l with
  | host a => exact hcontra a (parse_host a)
  | range a len allow =>
    obtain ⟨mask, h, -⟩ := parse_range a len allow
    exact hcontra a h
  | mask a m allow => exact hcontra a (parse_mask a m allow)

end

end Redcurrant.Metautils
