import Redcurrant.Infra.KeyedTable
import Redcurrant.Metautils.Hashstr

/-!
# table の version

`sqliterepo/version.c`。`version:<名前>` の行から version の木を作り、期待される version を求め、2 つの木を比べる。
-/

namespace Redcurrant.Sqliterepo

open Infra Metautils Std List Option Hashstr

/-! ## error -/

structure GError where
  code : Int
  message : String
  deriving DecidableEq

/-- message に埋め込む文字列 -/
def text (s : Bytes) : String := String.ofList (s.map fun b => Char.ofNat b.toNat)

/-- `g_prefix_error` -/
def prefixError (pre : String) (e : GError) : GError := { e with message := pre ++ e.message }

/-- `CODE_PIPETO`。手元の写しの方が新しい。 -/
def codePipeto : Int := 470

/-- `CODE_PIPEFROM`。手元の写しが古い。 -/
def codePipefrom : Int := 471

/-- `CODE_CONCURRENT`。両方が変わっている。 -/
def codeConcurrent : Int := 472

/-! ## version の木 -/

structure ObjectVersion where
  version : Int
  «when» : Int
  deriving DecidableEq

/-- table の名前から version への `GTree` -/
abbrev VersionTree := ExtTreeMap Hashstr ObjectVersion Hashstr.quickCmp

/-- admin table の cache（`sq3->admin`）。鍵は C の文字列。 -/
abbrev AdminTree := ExtTreeMap Bytes Bytes compare

/-- `version:` -/
def versionPrefix : Bytes := ascii "version:"

/-- `hook_extract` が値から読む version と日付 -/
def parseVersion (v : Bytes) : Option ObjectVersion :=
  (splitAtChar 58 (cstr v)).map fun (before, after) => ⟨atoi before, atoi after⟩

def hookExtract (k v : Bytes) : Option (Hashstr × ObjectVersion) :=
  if hasPrefix k versionPrefix then
    (parseVersion v).map fun o => (Hashstr.create (k.drop versionPrefix.length), o)
  else none

def versionExtractFromAdminTree (t : AdminTree) : VersionTree :=
  (t.toList.filterMap fun p => hookExtract p.1 p.2).foldl (updateAt fun _ o => o) ∅

/-! ## 期待される version -/

/-- `version_get(TRUE, …)` が新しく作る entry の version -/
def initialVersion : ObjectVersion := ⟨1, 0⟩

/-- `version_extract_effective_diff` が admin table とみなす名前。`memcmp` は最後の byte を比べない。 -/
def isAdminInDiff (name : Bytes) : Bool :=
  name.length == (ascii "main.admin").length &&
    name.take (name.length - 1) == (ascii "main.admin").take (name.length - 1)

/-- `version_extract_effective_diff`。message が名指す table に 1 を割り当てる。 -/
def versionExtractEffectiveDiff (names : List Bytes) : VersionTree :=
  (names.filter fun n => !isAdminInDiff n).foldl
    (fun t n => updateAt (fun o _ => { o.getD initialVersion with version := 1 }) t
      (Hashstr.printfLen n, ())) ∅

/-- `version_apply_diff`。`src` に無い table は version 1 から始まる。 -/
def versionApplyDiff (src diff : VersionTree) : VersionTree :=
  let result : VersionTree := src.toList.foldl (updateAt fun _ v => v) ∅
  diff.toList.foldl (updateAt fun o v =>
    { version := (o.getD initialVersion).version + v.version, «when» := v.when }) result

def versionExtractExpected (current : VersionTree) (names : List Bytes) : VersionTree :=
  versionApplyDiff current (versionExtractEffectiveDiff names)

/-! ## 比較 -/

/-- `runner_schema` の結果。片方にしか無い table がある。 -/
def schemaChange (current expected : VersionTree) : Bool :=
  current.toList.any (fun p => expected[p.1]?.isNone) ||
    expected.toList.any (fun p => current[p.1]?.isNone)

/-- `runner_diff`。負の差の最小と正の差の最大を覚える。 -/
def runnerDiff (acc : Int × Int) (d : Int) : Int × Int :=
  if d < 0 then (min d acc.1, acc.2)
  else if 0 < d then (acc.1, max d acc.2)
  else acc

/-- 両方にある table の version の差。`gint64` で計算する。 -/
def versionDeltas (current expected : VersionTree) : List Int :=
  current.toList.filterMap fun p => expected[p.1]?.map fun o => toInt64 (p.2.version - o.version)

/-- `version_validate_diff`。error と、最大の差（`worst`）。 -/
def versionValidateDiff (current expected : VersionTree) : Option GError × Int :=
  let schema := schemaChange current expected
  let (deltaMin, deltaMax) := (versionDeltas current expected).foldl runnerDiff (0, 0)
  if deltaMax ≠ 0 ∧ deltaMin ≠ 0 then
    (some ⟨codeConcurrent, "Concurrent content changes"⟩, 0)
  else if deltaMin < 0 then
    (if schema ∨ deltaMin < -1 then some ⟨codePipefrom, "Local diff missed"⟩ else none, deltaMin)
  else if 0 < deltaMax then
    (if schema ∨ 1 < deltaMax then some ⟨codePipeto, "Remote diff missed"⟩ else none, deltaMax)
  else (none, 0)

/-! ## 木を作る関数の鍵ごとの値 -/

theorem versionApplyDiff_getElem? (src diff : VersionTree) (k : Hashstr) :
    (versionApplyDiff src diff)[k]? = match diff[k]? with
      | some d => some ⟨(src[k]?.getD initialVersion).version + d.version, d.when⟩
      | none => src[k]? := by
  have hsrc : ∀ k : Hashstr,
      (src.toList.foldl (updateAt fun _ v => v) (∅ : VersionTree))[k]? = src[k]? := by
    intro k
    rw [getElem?_foldl_update_toList]
    cases src[k]? <;> simp
  unfold versionApplyDiff
  rw [getElem?_foldl_update_toList]
  cases diff[k]? with
  | none => exact hsrc k
  | some d => rw [hsrc k]

theorem versionExtractEffectiveDiff_getElem? (names : List Bytes) (k : Hashstr) :
    (versionExtractEffectiveDiff names)[k]? =
      if ∃ n ∈ names, isAdminInDiff n = false ∧ printfLen n = k then some ⟨1, 0⟩
      else none := by
  unfold versionExtractEffectiveDiff
  -- どの段階の木の値も `⟨1, 0⟩`
  have key : ∀ (l : List Bytes) (t : VersionTree), (∀ o ∈ t[k]?, o = ⟨1, 0⟩) →
      (l.foldl (fun t n => updateAt (fun o _ => { o.getD initialVersion with version := 1 }) t
        (printfLen n, ())) t)[k]? =
        if ∃ n ∈ l, printfLen n = k then some ⟨1, 0⟩ else t[k]? := by
    intro l
    induction l with
    | nil => simp
    | cons n l ih =>
      intro t ht
      have hstep : (updateAt (fun o (_ : Unit) =>
          { o.getD initialVersion with version := 1 }) t (printfLen n, ()))[k]? =
          if printfLen n = k then some ⟨1, 0⟩ else t[k]? := by
        rw [updateAt, ExtTreeMap.getElem?_insert]
        simp only [quickCmp_eq_eq]
        split
        · next hk =>
          subst hk
          cases hv : t[printfLen n]? with
          | none => rfl
          | some o => rw [ht o hv]; rfl
        · rfl
      rw [foldl_cons, ih _ ?_, hstep]
      · by_cases hk : printfLen n = k <;> simp [hk]
      rw [hstep]
      split
      · intro o ho; cases ho; rfl
      · exact ht
  rw [key _ _ (by simp)]
  simp [and_assoc]

theorem versionExtractExpected_getElem? (current : VersionTree) (names : List Bytes) (k : Hashstr) :
    (versionExtractExpected current names)[k]? =
      if ∃ n ∈ names, isAdminInDiff n = false ∧ printfLen n = k then
        some ⟨(current[k]?.getD initialVersion).version + 1, 0⟩
      else current[k]? := by
  rw [versionExtractExpected, versionApplyDiff_getElem?, versionExtractEffectiveDiff_getElem?]
  split_ifs <;> rfl

theorem hookExtract_eq_some {k v : Bytes} {h : Hashstr} {o : ObjectVersion} :
    hookExtract k v = some (h, o) ↔
      ∃ y, k = versionPrefix ++ y ∧ h = create y ∧ parseVersion v = some o := by
  unfold hookExtract hasPrefix
  constructor
  · intro he
    split at he
    · next hp =>
      obtain ⟨y, rfl⟩ := isPrefixOf_iff_prefix.mp hp
      obtain ⟨o', ho, he⟩ := map_eq_some_iff.mp he
      simp only [drop_left, Prod.mk.injEq] at he
      exact ⟨y, rfl, he.1.symm, he.2 ▸ ho⟩
    · cases he
  · rintro ⟨y, rfl, rfl, ho⟩
    rw [ho]
    simp

theorem versionExtractFromAdminTree_eq_some {t : AdminTree} {h : Hashstr} {o : ObjectVersion} :
    (versionExtractFromAdminTree t)[h]? = some o ↔
      ∃ y v, t[versionPrefix ++ y]? = some v ∧ h = create y ∧ parseVersion v = some o := by
  have hpair : (t.toList.filterMap fun p => hookExtract p.1 p.2).Pairwise
      (fun p q => p.1 ≠ q.1) := by
    rw [pairwise_filterMap]
    refine (pairwise_ne_toList t).imp ?_
    rintro ⟨k, v⟩ ⟨k', v'⟩ hne ⟨h, o⟩ ho ⟨h', o'⟩ ho' he
    obtain ⟨y, rfl, rfl, -⟩ := hookExtract_eq_some.mp ho
    obtain ⟨y', rfl, rfl, -⟩ := hookExtract_eq_some.mp ho'
    exact hne (by rw [show y = y' from create_inj he])
  rw [versionExtractFromAdminTree, getElem?_foldl_set_iff hpair]
  simp only [mem_filterMap, Prod.exists, ExtTreeMap.mem_toList_iff_getElem?_eq_some]
  constructor
  · rintro ⟨k, v, hv, he⟩
    obtain ⟨y, rfl, rfl, ho⟩ := hookExtract_eq_some.mp he
    exact ⟨y, v, hv, rfl, ho⟩
  · rintro ⟨y, v, hv, rfl, ho⟩
    exact ⟨_, v, hv, hookExtract_eq_some.mpr ⟨y, rfl, rfl, ho⟩⟩

/-- **取り出した version は `version:<名前>` の行を読んだもの。** -/
theorem versionExtractFromAdminTree_getElem? (t : AdminTree) (y : Bytes) :
    (versionExtractFromAdminTree t)[create y]? = t[versionPrefix ++ y]?.bind parseVersion := by
  refine ext fun o => ?_
  rw [versionExtractFromAdminTree_eq_some, bind_eq_some_iff]
  constructor
  · rintro ⟨y', v, hv, hy, ho⟩
    rw [create_inj hy]
    exact ⟨v, hv, ho⟩
  · rintro ⟨v, hv, ho⟩
    exact ⟨y, v, hv, rfl, ho⟩

theorem versionExtractFromAdminTree_congr {t t' : AdminTree}
    (h : ∀ y, t[versionPrefix ++ y]? = t'[versionPrefix ++ y]?) :
    versionExtractFromAdminTree t = versionExtractFromAdminTree t' := by
  refine ExtTreeMap.ext_getElem? fun k => ext fun o => ?_
  simp only [versionExtractFromAdminTree_eq_some, h]

/-! ## 「差なし」の意味 -/

theorem foldl_runnerDiff_spec : ∀ (l : List Int) (a b : Int), a ≤ 0 → 0 ≤ b →
    ∃ lo hi, l.foldl runnerDiff (a, b) = (lo, hi) ∧ lo ≤ a ∧ b ≤ hi ∧
      (∀ d ∈ l, lo ≤ d ∧ d ≤ hi) ∧ (lo = a ∨ lo ∈ l) ∧ (hi = b ∨ hi ∈ l)
  | [], a, b, _, _ => ⟨a, b, rfl, by simp⟩
  | d :: l, a, b, ha, hb => by
    obtain ⟨a', b', hstep, ha', hb', hd, hlo', hhi'⟩ : ∃ a' b', runnerDiff (a, b) d = (a', b') ∧
        a' ≤ a ∧ b ≤ b' ∧ (a' ≤ d ∧ d ≤ b') ∧ (a' = a ∨ a' = d) ∧ (b' = b ∨ b' = d) := by
      unfold runnerDiff
      split
      · exact ⟨_, _, rfl, by omega⟩
      split
      · exact ⟨_, _, rfl, by omega⟩
      · exact ⟨_, _, rfl, by omega⟩
    obtain ⟨lo, hi, hfold, h1, h2, hall, hlo, hhi⟩ :=
      foldl_runnerDiff_spec l a' b' (by omega) (by omega)
    refine ⟨lo, hi, by rw [foldl_cons, hstep, hfold], by omega, by omega, ?_, ?_, ?_⟩
    · intro x hx
      rcases mem_cons.mp hx with rfl | hx
      · omega
      · exact hall x hx
    · grind
    · grind

/-- 両方にある table の version の差は 64 bit に収まる -/
def DiffsFit (current expected : VersionTree) : Prop :=
  ∀ (k : Hashstr) (o e : ObjectVersion), current[k]? = some o → expected[k]? = some e →
    -2 ^ 63 < o.version - e.version ∧ o.version - e.version < 2 ^ 63

variable {current expected : VersionTree} (hfit : DiffsFit current expected)
include hfit

theorem mem_versionDeltas {d : Int} : d ∈ versionDeltas current expected ↔
    ∃ (k : Hashstr) (o e : ObjectVersion), current[k]? = some o ∧ expected[k]? = some e ∧
      o.version - e.version = d := by
  simp only [versionDeltas, mem_filterMap, map_eq_some_iff, Prod.exists,
    ExtTreeMap.mem_toList_iff_getElem?_eq_some]
  refine exists_congr fun k => exists_congr fun o => ?_
  constructor
  · rintro ⟨ho, e, he, rfl⟩
    have hb := hfit k o e ho he
    exact ⟨e, ho, he, (toInt64_of_bounds (by omega)).symm⟩
  · rintro ⟨e, ho, he, rfl⟩
    have hb := hfit k o e ho he
    exact ⟨ho, e, he, toInt64_of_bounds (by omega)⟩

/-- **比較が error も差も報告しないのは、両方にある table の version がすべて等しいとき。** -/
theorem versionValidateDiff_accepts_iff : versionValidateDiff current expected = (none, 0) ↔
    ∀ (k : Hashstr) (o e : ObjectVersion),
      current[k]? = some o → expected[k]? = some e → o.version = e.version := by
  obtain ⟨lo, hi, hfold, hlo, hhi, hall, hmin, hmax⟩ :=
    foldl_runnerDiff_spec (versionDeltas current expected) 0 0 (by omega) (by omega)
  have hzero : versionValidateDiff current expected = (none, 0) ↔ lo = 0 ∧ hi = 0 := by
    unfold versionValidateDiff
    rw [hfold]
    dsimp only
    split_ifs <;> simp <;> omega
  rw [hzero]
  constructor
  · rintro ⟨rfl, rfl⟩ k o e ho he
    have := hall _ ((mem_versionDeltas hfit).mpr ⟨k, o, e, ho, he, rfl⟩)
    omega
  · intro h
    have hd : ∀ d ∈ versionDeltas current expected, d = 0 := by
      intro d hd
      obtain ⟨k, o, e, ho, he, rfl⟩ := (mem_versionDeltas hfit).mp hd
      have := h k o e ho he
      omega
    exact ⟨hmin.elim id (hd lo), hmax.elim id (hd hi)⟩

end Redcurrant.Sqliterepo
