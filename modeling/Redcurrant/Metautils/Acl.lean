import Redcurrant.Infra.Inet
import Redcurrant.Infra.Joined
import Redcurrant.Infra.Regex

/-!
# ACL

text の 1 行が 1 つの規則である。`_parse_acl_bytes` が読み、番地は最初に一致した規則で許されるか拒まれる。
-/

namespace Redcurrant.Metautils

open Infra Option List

/-- `addr_rule_t` -/
structure AddrRule where
  (networkAddr networkMask : Option Bytes)
  authorize : Bool
  deriving DecidableEq

/-! ## 一致 -/

/-- `g_strsplit(s, ".", 4)`。NULL は 0 個に分かれる。 -/
def dotTokens (s : Option Bytes) : List Bytes := s.elim [] (strsplit 46 4)

/-- `g_ascii_strtoll(tokens[i], NULL, 10)`。列の終わりの NULL は 0 と読まれる。 -/
def tokenAt (tokens : List Bytes) (i : Nat) : Option Int :=
  match tokens[i]? with
  | some t => some (strtoll t)
  | none => if i = tokens.length then some 0 else none

def and64 (a b : Int) : BitVec 64 := BitVec.ofInt 64 a &&& BitVec.ofInt 64 b

/-- `_rule_match` の loop -/
def matchTokens (network addr mask : List Bytes) : List Nat → Option Bool
  | [] => some true
  | i :: is =>
    match tokenAt network i, tokenAt addr i, tokenAt mask i with
    | some n, some a, some m =>
      if and64 n m ≠ and64 a m then some false else matchTokens network addr mask is
    | _, _, _ => none

/-- `_rule_match`。数を確かめるのは mask と番地で、`addr` は確かめない。 -/
def ruleMatch (addr : Bytes) (rule : AddrRule) : Option Bool :=
  let mask := dotTokens rule.networkMask
  let network := dotTokens rule.networkAddr
  if mask.length ≠ 4 ∨ network.length ≠ 4 then some true
  else matchTokens network (dotTokens (some addr)) mask [0, 1, 2, 3]

def firstMatch (addr : Bytes) : List AddrRule → Option Bool
  | [] => some false
  | rule :: acl =>
    match ruleMatch addr rule with
    | none => none
    | some true => some rule.authorize
    | some false => firstMatch addr acl

/-- `authorized_personal_only`。規則が無ければ許す。 -/
def authorizedPersonalOnly (addr : Bytes) (acl : List AddrRule) : Option Bool :=
  if acl.isEmpty then some true else firstMatch addr acl

/-! ## 行を読む -/

/-- 正規表現の `.` と照合しない、行の終わりの文字 -/
def isNewline (c : Nat) : Bool := [10, 11, 12, 13, 133, 8232, 8233].contains c

def regexDigit : Regex := .chars fun c => decide (48 ≤ c) && decide (c ≤ 57)

/-- `([0-9]{1,3}.){3}[0-9]{1,3}/[0-9]{1,2}` -/
def rangeRegex : Regex :=
  .seq (.rep (.seq (.rep regexDigit 1 3) (.chars fun c => !isNewline c)) 3 3)
    (.seq (.rep regexDigit 1 3) (.seq (.chars (· == 47)) (.rep regexDigit 1 2)))

/-- `netmask[octet_full]` に立てる bit -/
def partialOctet (last : Int) : Nat :=
  (range last.toNat).foldl (fun m k => m ||| 2 <<< (8 - (k + 1) - 1)) 0

/-- `netmask[4]`。`octet_full` が範囲の外なら `none`。 -/
def netmask (i : Int) : Option (List Nat) :=
  let octetFull := i.tdiv 8
  if octetFull < 0 ∨ 4 < octetFull then none
  else
    some ((replicate octetFull.toNat 255 ++ partialOctet (i.tmod 8) :: [0, 0, 0]).take 4)

/-- `_range2netmask`。`ip_range` には `/` がある。 -/
def range2netmask (ipRange : Bytes) : Option Bytes :=
  let split := strsplit 47 2 ipRange
  (netmask (atoi (split.getD 1 []))).map fun mask =>
    (split.getD 0 [] ++ 32 :: [46].intercalate (mask.map decNat)).take 1023

/-- `_parse_acl_bytes` の 1 行。空の行はここに来ない。 -/
def parseAclLine (line : Bytes) : Option AddrRule :=
  if hasPrefix line (ascii "host") then
    some ⟨(strsplit 32 2 line)[1]?, some (ascii "255.255.255.255"), true⟩
  else
    let splits := strsplit 32 0 line
    if splits.length = 3 then some ⟨splits[0]?, splits[1]?, false⟩
    else if rangeRegex.search (splits.getD 0 []) then
      (range2netmask (splits.getD 0 [])).map fun tmp =>
        ⟨(strsplit 32 2 tmp)[0]?, (strsplit 32 2 tmp)[1]?, (ascii "allow").isSuffixOf line⟩
    else some ⟨none, none, (ascii "allow").isSuffixOf line⟩

def aclLines (acl : Bytes) : List Bytes := (strsplit 10 0 (cstr acl)).filter fun l => !l.isEmpty

def parseAclBytes (acl : Bytes) : Option (List AddrRule) := (aclLines acl).mapM parseAclLine

/-- text を読み、番地を調べる -/
def aclDecision (acl addr : Bytes) : Option Bool :=
  (parseAclBytes acl).bind (authorizedPersonalOnly addr)

/-! ## 行ごとの規則 -/

/-- 行が番地をどう決めるか。`some none` は次の行に任せる。 -/
def lineVerdict (addr line : Bytes) : Option (Option Bool) :=
  (parseAclLine line).bind fun rule =>
    (ruleMatch addr rule).map fun m => if m then some rule.authorize else none

def decideLines (addr : Bytes) : List Bytes → Option Bool
  | [] => some false
  | line :: lines =>
    match lineVerdict addr line with
    | none => none
    | some none => decideLines addr lines
    | some (some b) => some b

/-- 次の行に任せない、最初の行 -/
def decidingLine (addr : Bytes) (lines : List Bytes) : Option Bytes :=
  lines.find? fun line => lineVerdict addr line != some none

theorem firstMatch_eq_decideLines {addr : Bytes} : ∀ {lines : List Bytes} {rules : List AddrRule},
    lines.mapM parseAclLine = some rules → firstMatch addr rules = decideLines addr lines
  | [], rules, h => by
    cases h
    rfl
  | line :: lines, rules, h => by
    rw [mapM_cons] at h
    obtain ⟨rule, hrule, h⟩ := bind_eq_some_iff.mp h
    obtain ⟨rest, hrest, h⟩ := bind_eq_some_iff.mp h
    cases h
    have ih : firstMatch addr rest = decideLines addr lines := firstMatch_eq_decideLines hrest
    rw [firstMatch, decideLines, lineVerdict, hrule, bind_some, ih]
    rcases ruleMatch addr rule with _ | _ | _ <;> rfl

theorem decideLines_true_iff {addr : Bytes} {lines : List Bytes} :
    decideLines addr lines = some true ↔
      ∃ line, decidingLine addr lines = some line ∧ lineVerdict addr line = some (some true) := by
  induction lines with
  | nil => simp [decideLines, decidingLine]
  | cons line lines ih =>
    rw [decideLines, decidingLine, find?_cons]
    cases hv : lineVerdict addr line with
    | none =>
      change none = some true ↔ ∃ l, some line = some l ∧ _
      simp [hv]
    | some v =>
      cases v with
      | none => exact ih
      | some b =>
        change some b = some true ↔ ∃ l, some line = some l ∧ _
        simp [hv]

theorem aclDecision_eq {acl addr : Bytes} (hne : aclLines acl ≠ [])
    (h : ∀ line ∈ aclLines acl, (parseAclLine line).isSome = true) :
    aclDecision acl addr = decideLines addr (aclLines acl) := by
  have hmap : ((aclLines acl).mapM parseAclLine).isSome = true := by
    generalize aclLines acl = lines at h
    induction lines with
    | nil => rfl
    | cons line lines ih =>
      obtain ⟨rule, hrule⟩ := isSome_iff_exists.mp (h line mem_cons_self)
      obtain ⟨rest, hrest⟩ := isSome_iff_exists.mp (ih fun l hl => h l (mem_cons_of_mem _ hl))
      rw [mapM_cons, hrule, hrest]
      rfl
  obtain ⟨rules, hrules⟩ := isSome_iff_exists.mp hmap
  have hlen : rules ≠ [] := by
    intro hnil
    have := length_of_mapM hrules
    rw [hnil] at this
    exact hne (length_eq_zero_iff.mp this.symm)
  rw [aclDecision, parseAclBytes, hrules, bind_some, authorizedPersonalOnly,
    if_neg (by simpa using hlen), firstMatch_eq_decideLines hrules]

end Redcurrant.Metautils
