import Redcurrant.Infra.Cstring

/-!
# service とその場所

`struct service_info_s` の 2 つの tag、storage class と location。距離は location の名が分かれる深さで決まる。
-/

namespace Redcurrant.Metautils

open Infra List

/-! ## 番地 -/

/-- `enum id_addr_type_e` -/
inductive AddrType
  | v4
  | v6
  deriving DecidableEq

/-- `struct addr_info_s`。`addr` は `type` の長さの byte の列。 -/
structure AddrInfo where
  type : AddrType
  addr : Bytes
  (port protocol : Nat)
  deriving DecidableEq

/-- `addr_info_equal` が比べる部分。protocol は見ない。 -/
def AddrInfo.key (a : AddrInfo) : AddrType × Nat × Bytes := (a.type, a.port, a.addr)

def addrInfoEqual (a b : AddrInfo) : Bool := a.key == b.key

@[simp] theorem addrInfoEqual_iff {a b : AddrInfo} : addrInfoEqual a b = true ↔ a.key = b.key := by
  simp [addrInfoEqual]

/-! ## service と tag -/

/-- tag の値。文字列（`STVT_STR`、`STVT_BUF`）でない値は byte の列のまま持つ。 -/
inductive TagValue
  | text (s : Bytes)
  | other (raw : Bytes)
  deriving DecidableEq

structure ServiceTag where
  name : Bytes
  value : TagValue
  deriving DecidableEq

structure ServiceInfo where
  (nsName type : Bytes)
  addr : AddrInfo
  score : Int
  tags : List ServiceTag
  deriving DecidableEq

/-- `service_info_get_tag`。大文字と小文字を区別しない。 -/
def getTag (tags : List ServiceTag) (name : Bytes) : Option ServiceTag :=
  tags.find? fun t => strcaseeq t.name name

/-- `service_info_get_tag_value` に既定値 NULL を渡したもの -/
def ServiceInfo.getTagValue (si : ServiceInfo) (name : Bytes) : Option Bytes :=
  match getTag si.tags name with
  | some ⟨_, .text s⟩ => some s
  | _ => none

/-- `service_info_get_rawx_location` -/
def ServiceInfo.location (si : ServiceInfo) : Option Bytes := si.getTagValue (ascii "tag.loc")

/-- `service_info_get_stgclass` -/
def ServiceInfo.stgclass (si : ServiceInfo) : Option Bytes := si.getTagValue (ascii "tag.stgclass")

/-! ## storage class -/

def isNone (s : Option Bytes) : Bool :=
  match s with
  | none => true
  | some s => s.isEmpty || strcaseeq s (ascii "none")

def isAny (s : Option Bytes) : Bool := isNone s || s.any (strcaseeq · (ascii "DUMMY"))

structure StorageClass where
  name : Option Bytes
  fallbacks : List (Option Bytes)
  deriving DecidableEq

def storageClassIsSatisfied (wsc asc : Option Bytes) : Bool :=
  isAny wsc || (match wsc, asc with
    | some w, some a => strcaseeq w a
    | _, _ => false)

def storageClassIsSatisfied2 (wsc : Option StorageClass) (asc : Option Bytes) (strict : Bool) :
    Bool :=
  match wsc with
  | none => true
  | some wsc =>
    storageClassIsSatisfied wsc.name asc ||
      (!strict && wsc.fallbacks.any fun f => f.isSome && storageClassIsSatisfied f asc)

def ServiceInfo.checkStorageClass (si : ServiceInfo) (wanted : Option Bytes) : Bool :=
  storageClassIsSatisfied wanted si.stgclass

/-! ## 距離 -/

/-- `g_strsplit(loc, ".", 0)`。空の文字列は 0 個に分かれる。 -/
def locationTokens (loc : Bytes) : List Bytes := if loc.isEmpty then [] else loc.splitOn 46

/-- `distance_between_location` の数え -/
structure TokenWalk where
  (numTok curIter : Nat)
  foundDiff : Bool
  deriving DecidableEq

/-- 1 組の token を比べる。違いの後は深さを数えない。 -/
def TokenWalk.meet (w : TokenWalk) (a b : Bytes) : TokenWalk :=
  if w.foundDiff then { w with numTok := w.numTok + 1 }
  else { numTok := w.numTok + 1, curIter := w.curIter + 1, foundDiff := a != b }

/-- token の列を読む loop。片方が尽きれば残りの数を足す。 -/
def TokenWalk.run (w : TokenWalk) : List Bytes → List Bytes → TokenWalk
  | [], ts => { w with numTok := w.numTok + ts.length }
  | _ :: ts, [] => TokenWalk.run { w with numTok := w.numTok + 1 } ts []
  | a :: ts, b :: us => (w.meet a b).run ts us

/-- 数えから距離を求める。shift の幅は 32 の剰余。 -/
def TokenWalk.distance (w : TokenWalk) : Nat :=
  let tokenDist := w.numTok - w.curIter + 1
  if 1 < tokenDist then 2 ^ ((tokenDist - 1) % 32) else if w.foundDiff then 1 else 0

/-- `distance_between_location` に NULL でない文字列を渡したもの -/
def locationDistance (l₁ l₂ : Bytes) : Nat :=
  if l₁.isEmpty && l₂.isEmpty then 1
  else (TokenWalk.run ⟨0, 0, false⟩ (locationTokens l₁) (locationTokens l₂)).distance

/-- `distance_between_location`。`none` は NULL を読んで落ちる。 -/
def distanceBetweenLocation : Option Bytes → Option Bytes → Option Nat
  | some l₁, some l₂ => some (locationDistance l₁ l₂)
  | some l, none | none, some l => if l.isEmpty then some 1 else none
  | none, none => some 1

/-- `distance_between_services`。location が無ければ空とする。 -/
def distanceBetweenServices (s₀ s₁ : ServiceInfo) : Nat :=
  locationDistance (s₀.location.getD []) (s₁.location.getD [])

namespace TokenWalk

variable (w : TokenWalk)

@[simp] theorem run_nil_right : ∀ (w : TokenWalk) (ts : List Bytes),
    w.run ts [] = { w with numTok := w.numTok + ts.length }
  | _, [] => rfl
  | w, _ :: ts => by
    rw [run, run_nil_right _ ts]
    simp only [length_cons]
    congr 1
    omega

theorem meet_comm (a b : Bytes) : w.meet a b = w.meet b a := by
  have hne : (a != b) = (b != a) := by
    rw [Bool.eq_iff_iff, bne_iff_ne, bne_iff_ne]
    exact ne_comm
  rw [meet, meet, hne]

theorem run_comm : ∀ (w : TokenWalk) (ts us : List Bytes), w.run ts us = w.run us ts
  | w, [], us => by rw [run_nil_right, run]
  | w, t :: ts, [] => by rw [run_nil_right, run]
  | w, t :: ts, u :: us => by
    rw [run, run, meet_comm, run_comm]

end TokenWalk

/-- **距離は 2 つの location の順によらない。** -/
theorem locationDistance_comm (l1 l2 : Bytes) :
    locationDistance l1 l2 = locationDistance l2 l1 := by
  rw [locationDistance, TokenWalk.run_comm, Bool.and_comm, locationDistance]

/-! ## 同じ深さの location -/

/-- 同じ数の token の距離は分かれた token の後ろの数で決まる -/
def tokensDistance : List Bytes → List Bytes → Nat
  | a :: ts, b :: us => if a = b then tokensDistance ts us else 2 ^ ts.length
  | _, _ => 0

section

variable {ts us vs : List Bytes}

theorem TokenWalk.run_of_foundDiff {w : TokenWalk} (h : w.foundDiff = true)
    (hlen : ts.length = us.length) :
    w.run ts us = { w with numTok := w.numTok + ts.length } := by
  induction ts generalizing w us with
  | nil => rw [run, ← hlen]
  | cons a ts ih =>
    cases us with
    | nil => cases hlen
    | cons b us =>
      rw [run, meet, if_pos h, ih (w := { w with numTok := w.numTok + 1 }) h (Nat.succ.inj hlen)]
      simp [Nat.add_assoc, Nat.add_comm 1]

theorem TokenWalk.distance_run (n : Nat) (hlen : ts.length = us.length) (h : ts.length ≤ 32) :
    (run ⟨n, n, false⟩ ts us).distance = tokensDistance ts us := by
  induction ts generalizing n us with
  | nil =>
    cases us with
    | nil => simp [run, distance, tokensDistance]
    | cons b us => cases hlen
  | cons a ts ih =>
    cases us with
    | nil => cases hlen
    | cons b us =>
      rw [length_cons] at h
      have hlen := Nat.succ.inj hlen
      rw [run, meet, if_neg (by simp), tokensDistance]
      split
      · next he =>
        rw [he, bne_self_eq_false]
        exact ih (n + 1) hlen (by omega)
      rename_i hne
      rw [bne_iff_ne.mpr hne, run_of_foundDiff rfl hlen, distance]
      have hdist : n + 1 + ts.length - (n + 1) + 1 = ts.length + 1 := by omega
      simp only [hdist, Nat.add_sub_cancel, Nat.mod_eq_of_lt (show ts.length < 32 by omega)]
      split
      · rfl
      · rw [show ts.length = 0 by omega]
        rfl

theorem tokensDistance_le (ts us : List Bytes) : tokensDistance ts us ≤ 2 ^ (ts.length - 1) := by
  fun_induction tokensDistance ts us with
  | case1 a ts us ih => exact ih.trans (Nat.pow_le_pow_right (by decide) (Nat.sub_le _ _))
  | case2 a ts b us hne => exact Nat.le_refl _
  | case3 => exact Nat.zero_le _

theorem tokensDistance_ultra (h : ts.length = us.length) (h' : us.length = vs.length) :
    tokensDistance ts vs ≤ max (tokensDistance ts us) (tokensDistance us vs) := by
  induction ts generalizing us vs with
  | nil => exact Nat.zero_le _
  | cons a ts ih =>
    cases us with
    | nil => cases h
    | cons b us =>
      cases vs with
      | nil => cases h'
      | cons c vs =>
        have hl := Nat.succ.inj h
        have hl' := Nat.succ.inj h'
        have hle : tokensDistance ts vs ≤ 2 ^ ts.length :=
          (tokensDistance_le ts vs).trans (Nat.pow_le_pow_right (by decide) (Nat.sub_le _ _))
        simp only [tokensDistance]
        by_cases hab : a = b
        · subst hab
          rw [if_pos rfl]
          split
          · exact ih hl hl'
          · exact (congrArg (2 ^ ·) hl).le.trans (Nat.le_max_right _ _)
        · refine le_trans ?_ (Nat.le_max_left _ _)
          split
          · exact hle
          · exact Nat.le_refl _

theorem eq_of_tokensDistance (hlen : ts.length = us.length) (h : tokensDistance ts us = 0) :
    ts = us := by
  induction ts generalizing us with
  | nil => rw [length_eq_zero_iff.mp hlen.symm]
  | cons a ts ih =>
    cases us with
    | nil => cases hlen
    | cons b us =>
      rw [tokensDistance] at h
      split at h
      · next he => rw [he, ih (Nat.succ.inj hlen) h]
      · exact absurd h (Nat.two_pow_pos _).ne'

end

theorem locationTokens_eq_nil {x : Bytes} : locationTokens x = [] ↔ x = [] := by
  unfold locationTokens
  split
  · next h => simp [isEmpty_iff.mp h]
  · next h => simpa using h

theorem locationTokens_inj {x y : Bytes} (h : locationTokens x = locationTokens y) : x = y := by
  by_cases hx : x = []
  · rw [hx] at h ⊢
    exact (locationTokens_eq_nil.mp h.symm).symm
  have hy : y ≠ [] := fun hy => hx (locationTokens_eq_nil.mp (h.trans (hy ▸ rfl)))
  rw [locationTokens, locationTokens, if_neg (by simpa using hx), if_neg (by simpa using hy)] at h
  calc x = [46].intercalate (x.splitOn 46) := (intercalate_splitOn 46).symm
    _ = [46].intercalate (y.splitOn 46) := by rw [h]
    _ = y := intercalate_splitOn 46

theorem locationDistance_eq {x y : Bytes}
    (hlen : (locationTokens x).length = (locationTokens y).length)
    (h : (locationTokens x).length ≤ 32) :
    locationDistance x y =
      if x = [] then 1 else tokensDistance (locationTokens x) (locationTokens y) := by
  rw [locationDistance, TokenWalk.distance_run 0 hlen h]
  by_cases hx : x = []
  · have hy : y = [] := by
      rw [hx] at hlen
      exact locationTokens_eq_nil.mp (length_eq_zero_iff.mp hlen.symm)
    rw [hx, hy]
    rfl
  · simp [hx]

/-- **距離は順によらず、同じ深さの location では超距離。** -/
theorem location_ultrametric :
    (∀ l₁ l₂, distanceBetweenLocation l₁ l₂ = distanceBetweenLocation l₂ l₁) ∧
    ∀ x y z : Bytes, (locationTokens x).length = (locationTokens y).length →
      (locationTokens y).length = (locationTokens z).length → (locationTokens x).length ≤ 32 →
      locationDistance x z ≤ max (locationDistance x y) (locationDistance y z) ∧
        (locationDistance x y = 0 → x = y) := by
  refine ⟨fun l₁ l₂ => ?_, fun x y z hxy hyz hle => ?_⟩
  · cases l₁ <;> cases l₂ <;> simp only [distanceBetweenLocation, locationDistance_comm]
  rw [locationDistance_eq (hxy.trans hyz) hle, locationDistance_eq hxy hle,
    locationDistance_eq hyz (hxy ▸ hle)]
  by_cases hx : x = []
  · rw [if_pos hx, if_pos hx]
    exact ⟨Nat.le_max_left _ _, fun h => absurd h (by decide)⟩
  have hy : y ≠ [] := by
    rintro rfl
    exact hx (locationTokens_eq_nil.mp (length_eq_zero_iff.mp hxy))
  rw [if_neg hx, if_neg hx, if_neg hy]
  exact ⟨tokensDistance_ultra hxy hyz, fun h => locationTokens_inj (eq_of_tokensDistance hxy h)⟩

/-- 深さ 3 の 3 つの location -/
theorem location_ultrametric_three : locationDistance (ascii "a.b.c") (ascii "a.d.c") = 2 ∧
    locationDistance (ascii "a.b.c") (ascii "a.d.c") ≤
      max (locationDistance (ascii "a.b.c") (ascii "a.b.d"))
        (locationDistance (ascii "a.b.d") (ascii "a.d.c")) :=
  ⟨by decide +kernel, (location_ultrametric.2 _ _ _ (by decide +kernel) (by decide +kernel)
    (by decide +kernel)).1⟩

end Redcurrant.Metautils
