import Redcurrant.Sqliterepo.Version

/-!
# version の木の比較の対称性と符号化

2 つの木を入れ替えると、差の符号が変わり、最小と最大が入れ替わる（`versionValidateDiff_mirror`）。
-/

namespace Redcurrant.Sqliterepo

open Infra Metautils Std Hashstr

/-! ## 比較の対称性 -/

theorem foldl_runnerDiff_neg {l l' : List Int} (h : ∀ d, d ∈ l' ↔ -d ∈ l) :
    l'.foldl runnerDiff (0, 0) = (-(l.foldl runnerDiff (0, 0)).2, -(l.foldl runnerDiff (0, 0)).1) := by
  obtain ⟨lo, hi, hfold, hlo, hhi, hall, hmin, hmax⟩ :=
    foldl_runnerDiff_spec l 0 0 (by omega) (by omega)
  obtain ⟨lo', hi', hfold', hlo', hhi', hall', hmin', hmax'⟩ :=
    foldl_runnerDiff_spec l' 0 0 (by omega) (by omega)
  have hneg : ∀ d ∈ l, -d ∈ l' := fun d hd => (h _).mpr (by rwa [Int.neg_neg])
  have hle : lo' ≤ -hi := hmax.elim (by omega) fun hm => (hall' _ (hneg hi hm)).1
  have hge : -lo ≤ hi' := hmin.elim (by omega) fun hm => (hall' _ (hneg lo hm)).2
  have hle' : lo ≤ -hi' := hmax'.elim (by omega) fun hm => (hall _ ((h hi').mp hm)).1
  have hge' : -lo' ≤ hi := hmin'.elim (by omega) fun hm => (hall _ ((h lo').mp hm)).2
  rw [hfold, hfold', Prod.mk.injEq]
  omega

theorem DiffsFit.symm {a b : VersionTree} (h : DiffsFit a b) : DiffsFit b a := by
  intro k o e ho he
  have := h k e o he ho
  omega

theorem mem_versionDeltas_swap {a b : VersionTree} (hfit : DiffsFit a b) (d : Int) :
    d ∈ versionDeltas b a ↔ -d ∈ versionDeltas a b := by
  rw [mem_versionDeltas hfit.symm, mem_versionDeltas hfit]
  constructor
  · rintro ⟨k, o, e, ho, he, hd⟩
    exact ⟨k, e, o, he, ho, by omega⟩
  · rintro ⟨k, o, e, ho, he, hd⟩
    exact ⟨k, e, o, he, ho, by omega⟩

def diffCode (current expected : VersionTree) : Option Int :=
  (versionValidateDiff current expected).1.map GError.code

/-- **2 つの木を入れ替えると、PIPEFROM と PIPETO が入れ替わり、CONCURRENT と受け入れは変わらず、差は符号が変わる。** -/
theorem versionValidateDiff_mirror (a b : VersionTree) (hfit : DiffsFit a b) :
    (diffCode a b = some codePipefrom ↔ diffCode b a = some codePipeto) ∧
      (diffCode a b = some codePipeto ↔ diffCode b a = some codePipefrom) ∧
      (diffCode a b = some codeConcurrent ↔ diffCode b a = some codeConcurrent) ∧
      (diffCode a b = none ↔ diffCode b a = none) ∧
      (versionValidateDiff b a).2 = -(versionValidateDiff a b).2 := by
  have hschema : schemaChange b a = schemaChange a b := Bool.or_comm ..
  obtain ⟨lo, hi, hfold, hlo, hhi, -⟩ :=
    foldl_runnerDiff_spec (versionDeltas a b) 0 0 (by omega) (by omega)
  simp only [diffCode, versionValidateDiff, foldl_runnerDiff_neg (mem_versionDeltas_swap hfit),
    hschema, hfold]
  generalize schemaChange a b = schema
  -- 負の差があるか、正の差があるかで分ける
  rcases Int.lt_or_eq_of_le hlo with hlo | rfl <;> rcases Int.lt_or_eq_of_le hhi with hhi | rfl
  · have hlo' : lo ≠ 0 := by omega
    have hhi' : hi ≠ 0 := by omega
    simp [hlo', hhi', codePipefrom, codePipeto, codeConcurrent]
  · have hiff : 1 < -lo ↔ lo < -1 := by omega
    by_cases hbig : schema = true ∨ lo < -1 <;>
      simp [hlo, hiff, hbig, codePipefrom, codePipeto, codeConcurrent]
  · have hiff : -hi < -1 ↔ 1 < hi := by omega
    by_cases hbig : schema = true ∨ 1 < hi <;>
      simp [hhi, hiff, hbig, codePipefrom, codePipeto, codeConcurrent]
  · simp

/-- 2 つの table の version の木 -/
def twoVersions (v w : Int) : VersionTree :=
  ((∅ : VersionTree).insert (Hashstr.create [116]) ⟨v, 0⟩).insert (Hashstr.create [117]) ⟨w, 0⟩

theorem twoVersions_getElem? {v w : Int} {k : Hashstr} {o : ObjectVersion}
    (h : (twoVersions v w)[k]? = some o) : o.version = v ∨ o.version = w := by
  rw [twoVersions, ExtTreeMap.getElem?_insert, ExtTreeMap.getElem?_insert] at h
  split at h
  · exact .inr (congrArg ObjectVersion.version (Option.some.inj h).symm)
  split at h
  · exact .inl (congrArg ObjectVersion.version (Option.some.inj h).symm)
  · simp at h

/-- 片方の table だけが 2 つ先にある -/
theorem versionValidateDiff_mirror_two :
    diffCode (twoVersions 5 3) (twoVersions 7 3) = some codePipefrom ∧
      diffCode (twoVersions 7 3) (twoVersions 5 3) = some codePipeto := by
  have hfit : DiffsFit (twoVersions 5 3) (twoVersions 7 3) := by
    intro k o e ho he
    rcases twoVersions_getElem? ho with ho | ho <;> rcases twoVersions_getElem? he with he | he <;>
      rw [ho, he] <;> decide
  have hcode : diffCode (twoVersions 5 3) (twoVersions 7 3) = some codePipefrom := by
    decide +kernel
  exact ⟨hcode, (versionValidateDiff_mirror _ _ hfit).1.mp hcode⟩

/-! ## 符号化 -/

structure TableVersion where
  name : Bytes
  version : Int
  «when» : Int
  deriving DecidableEq

/-- `version_encode` の `runner` が足す組。空の名前は飛ばす。 -/
def encodeEntry (p : Hashstr × ObjectVersion) : Option TableVersion :=
  if 0 < p.1.s.length then some ⟨p.1.s, p.2.version, p.2.when⟩ else none

/-- `version_encode`。ASN.1 の符号化の前の列。 -/
def versionEncode (t : VersionTree) : List TableVersion := t.toList.filterMap encodeEntry

/-- `version_decode` が書く組。鍵は `version_getslen` が作り、値は上書きする。 -/
def decodeEntry (tv : TableVersion) : Option (Hashstr × ObjectVersion) :=
  if 0 < tv.name.length then some (Hashstr.printfLen tv.name, ⟨tv.version, tv.when⟩) else none

def versionDecode (tables : List TableVersion) : VersionTree :=
  (tables.filterMap decodeEntry).foldl (updateAt fun _ v => v) ∅

/-- 空でも NUL を含みもしない名前から `hashstr_create` で作った鍵の木 -/
def KeyedByName (t : VersionTree) : Prop :=
  ∀ (k : Hashstr) (o : ObjectVersion), t[k]? = some o → k = Hashstr.create k.s ∧ k.s ≠ [] ∧ 0 ∉ k.s

variable {t : VersionTree}

theorem s_printfLen {n : Bytes} (h : 0 ∉ n) : (printfLen n).s = n := by
  rw [printfLen, createLen, cstr_cstr, cstr_eq_self h]

theorem KeyedByName.of_mem (ht : KeyedByName t) {p : Hashstr × ObjectVersion} (hp : p ∈ t.toList) :
    p.1 = create p.1.s ∧ p.1.s ≠ [] ∧ 0 ∉ p.1.s :=
  ht p.1 p.2 (ExtTreeMap.mem_toList_iff_getElem?_eq_some.mp hp)

theorem decodeEntry_encode (ht : KeyedByName t) : (versionEncode t).filterMap decodeEntry =
    t.toList.map fun p => (printfLen p.1.s, p.2) := by
  rw [versionEncode, List.filterMap_filterMap, ← List.filterMap_eq_map]
  refine List.filterMap_congr fun p hp => ?_
  have hlen : 0 < p.1.s.length := List.length_pos_iff.mpr (ht.of_mem hp).2.1
  rw [encodeEntry, if_pos hlen, Option.bind_some, decodeEntry, if_pos hlen]
  rfl

/-- **読み戻した木の組は名前から作り直した鍵と元の値。** -/
theorem versionDecode_encode_eq_some (ht : KeyedByName t) {k : Hashstr} {o : ObjectVersion} :
    (versionDecode (versionEncode t))[k]? = some o ↔
      ∃ n, t[create n]? = some o ∧ printfLen n = k := by
  -- 鍵を作り直しても、名前が違えば鍵は違う
  have hpair : (t.toList.map fun p => (printfLen p.1.s, p.2)).Pairwise fun p q => p.1 ≠ q.1 := by
    rw [List.pairwise_map]
    refine (pairwise_ne_toList t).imp_of_mem fun {p q} hp hq hne he => hne ?_
    have hs := congrArg Hashstr.s he
    rw [s_printfLen (ht.of_mem hp).2.2, s_printfLen (ht.of_mem hq).2.2] at hs
    rw [(ht.of_mem hp).1, (ht.of_mem hq).1, hs]
  rw [versionDecode, decodeEntry_encode ht, getElem?_foldl_set_iff hpair]
  simp only [List.mem_map, Prod.mk.injEq, Prod.exists, ExtTreeMap.mem_toList_iff_getElem?_eq_some]
  constructor
  · rintro ⟨k', o', ho, rfl, rfl⟩
    exact ⟨k'.s, (ht k' o' ho).1 ▸ ho, rfl⟩
  · rintro ⟨n, ho, rfl⟩
    exact ⟨create n, o, ho, rfl, rfl⟩

/-- **読み戻した木が元の名前の鍵で元の値だけを持つのは、どの名前でも 2 つの hash が等しいとき。** -/
theorem versionDecode_encode_iff (t : VersionTree) (ht : KeyedByName t) :
    ((∀ n o, t[Hashstr.create n]? = some o →
        (versionDecode (versionEncode t))[Hashstr.create n]? = some o) ∧
      ∀ k o, (versionDecode (versionEncode t))[k]? = some o →
        ∃ n, k = Hashstr.create n ∧ t[k]? = some o) ↔
      ∀ n o, t[Hashstr.create n]? = some o → djbHashBuf n = djbHashStr n := by
  have hnul : ∀ n o, t[create n]? = some o → 0 ∉ n := fun n o ho => (ht _ _ ho).2.2
  constructor
  · rintro ⟨hfound, -⟩ n o ho
    obtain ⟨n', ho', he⟩ := (versionDecode_encode_eq_some ht).mp (hfound n o ho)
    have hs := congrArg Hashstr.s he
    rw [s_printfLen (hnul n' o ho')] at hs
    rw [show n' = n from hs] at he
    have hh := congrArg Hashstr.h he
    rwa [printfLen, cstr_eq_self (hnul n o ho)] at hh
  · intro hhash
    have hkey : ∀ n o, t[create n]? = some o → printfLen n = create n := by
      intro n o ho
      rw [printfLen, createLen, cstr_cstr, cstr_eq_self (hnul n o ho), hhash n o ho, create]
    refine ⟨fun n o ho => (versionDecode_encode_eq_some ht).mpr ⟨n, ho, hkey n o ho⟩,
      fun k o hk => ?_⟩
    obtain ⟨n, ho, rfl⟩ := (versionDecode_encode_eq_some ht).mp hk
    rw [hkey n o ho]
    exact ⟨n, rfl, ho⟩

def singleVersion (n : Bytes) (v : Int) : VersionTree :=
  (∅ : VersionTree).insert (Hashstr.create n) ⟨v, 0⟩

theorem singleVersion_getElem? {n : Bytes} {v : Int} {k : Hashstr} {o : ObjectVersion}
    (h : (singleVersion n v)[k]? = some o) : k = create n ∧ o = ⟨v, 0⟩ := by
  rw [singleVersion, ExtTreeMap.getElem?_insert] at h
  split at h
  · next he => exact ⟨(quickCmp_eq_eq.mp he).symm, (Option.some.inj h).symm⟩
  · simp at h

theorem keyedByName_single {n : Bytes} (v : Int) (hne : n ≠ []) (hz : 0 ∉ n) :
    KeyedByName (singleVersion n v) := by
  intro k o ho
  obtain ⟨rfl, -⟩ := singleVersion_getElem? ho
  exact ⟨rfl, hne, hz⟩

/-- ASCII の名前では元に戻る -/
theorem versionDecode_encode_ascii :
    (versionDecode (versionEncode (singleVersion [116] 5)))[Hashstr.create [116]]? =
      some ⟨5, 0⟩ := by
  refine ((versionDecode_encode_iff (singleVersion [116] 5)
    (keyedByName_single 5 (by decide) (by decide))).mpr fun n o ho => ?_).1 [116] ⟨5, 0⟩ ?_
  · obtain ⟨hn, -⟩ := singleVersion_getElem? ho
    rw [create_inj hn]
    decide
  · decide +kernel

theorem versionDecode_encode_lost : KeyedByName (singleVersion [233] 5) ∧
    (singleVersion [233] 5)[Hashstr.create [233]]? = some ⟨5, 0⟩ ∧
    (versionDecode (versionEncode (singleVersion [233] 5)))[Hashstr.create [233]]? = none :=
  ⟨keyedByName_single 5 (by decide) (by decide), by decide +kernel, by decide +kernel⟩

end Redcurrant.Sqliterepo
