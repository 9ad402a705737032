import Mathlib.Data.Nat.Digits.Defs
import Redcurrant.Sqliterepo.Dispatcher

/-!
# 増やした version の読み戻し

値 `VERSION:DATE` は 64 bit で書かれ、`atoi` で読まれる（`increments_read_back_iff`）。
-/

namespace Redcurrant.Sqliterepo

open Infra Metautils Std List Option

variable {S : Schema}

/-! ## 書かれる文字列 -/

def versionText (v w : Int) : Bytes := decInt v ++ ascii ":" ++ decInt w

def FitsInt64 (z : Int) : Prop := -2 ^ 63 ≤ z ∧ z < 2 ^ 63

def FitsInt32 (z : Int) : Prop := -2 ^ 31 ≤ z ∧ z < 2 ^ 31

theorem toInt32_eq_self_iff {z : Int} : toInt32 z = z ↔ FitsInt32 z := by
  constructor
  · intro h
    rw [← h]
    exact toInt32_bounds z
  · intro h
    rw [toInt32, Int.bmod_eq_of_le (by have := h.1; omega) (by have := h.2; omega)]

theorem parseVersion_versionText_iff {v w : Int} (hv : FitsInt64 v) (hw : FitsInt64 w) :
    parseVersion (versionText v w) = some ⟨v, w⟩ ↔ FitsInt32 v ∧ FitsInt32 w := by
  rw [versionText, parseVersion_dec hv hw, some.injEq, ObjectVersion.mk.injEq,
    toInt32_eq_self_iff, toInt32_eq_self_iff]

theorem incVersionValue_versionText {v w d : Int} (hv : FitsInt64 v) (hw : FitsInt64 w)
    (hd : FitsInt64 (v + d)) : incVersionValue (versionText v w) d = some (versionText (v + d) w) := by
  rw [incVersionValue, versionText, splitAtChar_dec, map_some]
  dsimp only
  rw [strtoll_dec hv, strtoll_dec hw, toInt64_of_bounds hd, versionText]

/-! ## buffer に収まる増分

`sqlx_admin_inc_all_versions` の buffer は元の値より 2 byte だけ長い。 -/

theorem lt_ten_pow_length_decNat (n : Nat) : n < 10 ^ (decNat n).length := by
  have h := foldl_digits_lt 0 (decNat_isDigit n)
  rwa [foldl_decNat, Nat.one_mul] at h

theorem length_decNat_le {n e : Nat} (he : 0 < e) (h : n < 10 ^ e) : (decNat n).length ≤ e := by
  rw [decNat, length_map]
  exact Nat.toDigits_length 10 n e he h

theorem length_decInt_add_le {v d : Int} (h0 : 0 ≤ d) (hd : d ≤ 990) :
    (decInt (v + d)).length ≤ (decInt v).length + 2 := by
  have hlt := lt_ten_pow_length_decNat v.natAbs
  have hpos : 0 < (decNat v.natAbs).length := length_pos_iff.mpr (decNat_ne_nil _)
  have hten : 10 ≤ 10 ^ (decNat v.natAbs).length := Nat.le_self_pow (by omega) 10
  unfold decInt
  split
  · next hneg =>
    rw [if_pos (by omega), length_cons, length_cons]
    have := length_decNat_le hpos (n := (v + d).natAbs) (by omega)
    omega
  refine length_decNat_le (by omega) ?_
  by_cases hv : v < 0
  · rw [if_pos hv, length_cons, Nat.pow_add]
    omega
  · rw [if_neg hv, Nat.pow_add]
    omega

/-! ## 増やす呼び出し -/

/-- version を増やす 2 つの関数の呼び出しと、その増分 -/
inductive Increment
  | one (delta : Nat)
  | all (delta : Nat)
  deriving DecidableEq

namespace Increment

def delta : Increment → Nat
  | one d => d
  | all d => d

/-- 行 `version:y` の version を増やす -/
def apply (y : Bytes) (x : Sq3 S) : Increment → Sq3 S
  | one d => adminIncVersion x (versionPrefix ++ y) d
  | all d => adminIncAllVersions x d

end Increment

def totalDelta (incs : List Increment) : Nat := (incs.map Increment.delta).sum

/-- `sqlx_admin_inc_all_versions` の loop の中身 -/
def adminIncEntry (delta : Int) (x : Sq3 S) (p : Bytes × Bytes) : Sq3 S :=
  if hasPrefix p.1 versionPrefix then
    match incVersionValue p.2 delta with
    | none => x
    | some v => adminPut x p.1 (v.take (p.2.length + 2))
  else x

theorem adminIncEntry_of_ne {x : Sq3 S} {p : Bytes × Bytes} {k : Bytes} (d : Int) (h : p.1 ≠ k) :
    (adminIncEntry d x p).admin[k]? = x.admin[k]? := by
  unfold adminIncEntry
  split
  · split
    · rfl
    · rw [adminPut, ExtTreeMap.getElem?_insert, if_neg]
      exact fun he => h (LawfulEqCmp.eq_of_compare he)
  · rfl

theorem foldl_adminIncEntry_of_notMem {k : Bytes} (d : Int) : ∀ (l : List (Bytes × Bytes)) (x : Sq3 S),
    (∀ p ∈ l, p.1 ≠ k) → (l.foldl (adminIncEntry d) x).admin[k]? = x.admin[k]?
  | [], _, _ => rfl
  | p :: l, x, h => by
    rw [foldl_cons, foldl_adminIncEntry_of_notMem d l _ fun q hq => h q (mem_cons_of_mem _ hq),
      adminIncEntry_of_ne d (h p mem_cons_self)]

/-- **すべての version を増やすと、読める値はどれも 1 回だけ増える。** -/
theorem adminIncAllVersions_getElem? {x : Sq3 S} {y b v : Bytes} {d : Int}
    (hb : x.admin[versionPrefix ++ y]? = some b) (hv : incVersionValue b d = some v) :
    (adminIncAllVersions x d).admin[versionPrefix ++ y]? = some (v.take (b.length + 2)) := by
  have hmem : (versionPrefix ++ y, b) ∈ x.admin.toList :=
    ExtTreeMap.mem_toList_iff_getElem?_eq_some.mpr hb
  -- 木の中で、この鍵の行の後に同じ鍵の行は無い
  obtain ⟨l1, l2, hl⟩ := append_of_mem hmem
  have hpair := pairwise_ne_toList x.admin
  rw [hl, pairwise_append, pairwise_cons] at hpair
  have hput : (adminIncEntry d (l1.foldl (adminIncEntry d) x) (versionPrefix ++ y, b)).admin[
      versionPrefix ++ y]? = some (v.take (b.length + 2)) := by
    rw [adminIncEntry]
    simp only [hv]
    exact ExtTreeMap.getElem?_insert_self
  have hfold : adminIncAllVersions x d = x.admin.toList.foldl (adminIncEntry d) x := rfl
  rw [hfold, hl, foldl_append, foldl_cons,
    foldl_adminIncEntry_of_notMem d l2 _ fun p hp => (hpair.2.1.1 p hp).symm, hput]

variable {x : Sq3 S} {y : Bytes} {v w : Int}

theorem Increment.apply_getElem? {i : Increment} (hv : FitsInt64 v) (hw : FitsInt64 w)
    (hi : i.delta ≤ 990) (hd : FitsInt64 (v + i.delta))
    (hx : x.admin[versionPrefix ++ y]? = some (versionText v w)) :
    (i.apply y x).admin[versionPrefix ++ y]? = some (versionText (v + i.delta) w) := by
  have hinc := incVersionValue_versionText hv hw hd
  cases i with
  | one d =>
    dsimp only [delta] at hinc ⊢
    rw [apply, adminIncVersion_getElem?, if_pos rfl, hx, map_some, bumped, hinc, getD_some]
  | all d =>
    dsimp only [delta] at hi hinc ⊢
    have hlen := length_decInt_add_le (v := v) (d := d) (by omega) (by omega)
    rw [apply, adminIncAllVersions_getElem? hx hinc, take_of_length_le]
    simp only [versionText, length_append]
    omega

/-- **呼び出しの列の後の値は増分の合計だけ増えている。** -/
theorem foldl_apply_getElem? (hw : FitsInt64 w) : ∀ (incs : List Increment) {x : Sq3 S} {v : Int},
    FitsInt64 v → (∀ i ∈ incs, i.delta ≤ 990) → v + totalDelta incs < 2 ^ 63 →
    x.admin[versionPrefix ++ y]? = some (versionText v w) →
    (incs.foldl (Increment.apply y) x).admin[versionPrefix ++ y]? =
      some (versionText (v + totalDelta incs) w)
  | [], x, v, _, _, _, hx => by
    rw [totalDelta, map_nil, sum_nil, Int.natCast_zero, Int.add_zero]
    exact hx
  | i :: incs, x, v, hv, hsmall, hsum, hx => by
    have hcons : v + totalDelta (i :: incs) = v + i.delta + totalDelta incs := by
      rw [Int.add_assoc]
      rfl
    rw [hcons] at hsum ⊢
    have hd : FitsInt64 (v + i.delta) := ⟨by have := hv.1; omega, by omega⟩
    exact foldl_apply_getElem? hw incs hd (fun j hj => hsmall j (mem_cons_of_mem _ hj)) hsum
      (Increment.apply_getElem? hv hw (hsmall i mem_cons_self) hd hx)

/-- **増やした version と日付が読み戻せるのは、どちらも 32 bit に収まるとき。** -/
theorem increments_read_back_iff (x : Sq3 S) (y : Bytes) {v w : Int} (hv : FitsInt64 v)
    (hw : FitsInt64 w) (hx : x.admin[versionPrefix ++ y]? = some (versionText v w))
    (incs : List Increment) (hsmall : ∀ i ∈ incs, i.delta ≤ 990)
    (hsum : v + totalDelta incs < 2 ^ 63) :
    (versionExtractFromAdmin (incs.foldl (Increment.apply y) x))[Hashstr.create y]? =
        some ⟨v + totalDelta incs, w⟩ ↔
      FitsInt32 (v + totalDelta incs) ∧ FitsInt32 w := by
  have hfit : FitsInt64 (v + totalDelta incs) := ⟨by have := hv.1; omega, hsum⟩
  rw [versionExtractFromAdmin, versionExtractFromAdminTree_getElem?,
    foldl_apply_getElem? hw incs hv hsmall hsum hx, bind_some,
    parseVersion_versionText_iff hfit hw]

theorem increments_read_back_three :
    (versionExtractFromAdmin ([.one 1, .all 2].foldl (Increment.apply (mainName (ascii "t")))
      base5))[Hashstr.create (mainName (ascii "t"))]? = some ⟨8, 0⟩ :=
  (increments_read_back_iff base5 (mainName (ascii "t")) (v := 5) (w := 0) ⟨by decide, by decide⟩
    ⟨by decide, by decide⟩ (by decide +kernel) [.one 1, .all 2] (by decide) (by decide)).mpr
    ⟨⟨by decide, by decide⟩, by decide, by decide⟩

/-- 32 bit の最大の version を増やすと、負の version が読まれる -/
theorem increment_read_negative :
    (storeBase demoSchema (ascii "t") (versionText 2147483647 0)).admin[versionKey (ascii "t")]? =
      some (versionText 2147483647 0) ∧
    (versionExtractFromAdmin (Increment.apply (mainName (ascii "t"))
      (storeBase demoSchema (ascii "t") (versionText 2147483647 0)) (.one 1)))[
        Hashstr.create (mainName (ascii "t"))]? = some ⟨-2147483648, 0⟩ :=
  ⟨by decide +kernel, by decide +kernel⟩

end Redcurrant.Sqliterepo
