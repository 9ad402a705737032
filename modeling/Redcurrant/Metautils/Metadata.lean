import Mathlib.Data.List.DropRight
import Mathlib.Data.List.Nodup
import Redcurrant.Infra.Cstring
import Redcurrant.Infra.Joined
import Redcurrant.Infra.KeyedTable

/-!
# metadata の文字列

`metautils/lib/utils_metadata.c`。名前と値の組を `;` でつないだ文字列を表に直して比べる。
-/

namespace Redcurrant.Metautils

open Infra List Std ExtTreeMap

/-- 名前から値への hash table -/
abbrev Metadata := ExtTreeMap Bytes Bytes compare

namespace Metadata

/-- `g_ascii_isspace`。垂直 tab は入らない。 -/
def isBlank (b : UInt8) : Bool := b == 32 || (9 ≤ b && b ≤ 13 && b != 11)

/-- `g_strstrip` -/
def strip (s : Bytes) : Bytes := (s.dropWhile isBlank).rdropWhile isBlank

/-- 1 つの token を最初の `=` で名前と値に分けて入れる。名前が空なら入れない。 -/
def insertToken (ht : Metadata) (tok : Bytes) : Metadata :=
  let pair := (splitAtChar 61 tok).getD (tok, [])
  if strip pair.1 = [] then ht else ht.insert (strip pair.1) pair.2

/-- `metadata_unpack_buffer`。空の token で止まる。 -/
def unpack (data : Bytes) : Metadata :=
  ((strsplit 59 0 (cstr data)).takeWhile (· ≠ [])).foldl insertToken ∅

/-- 組の多い方を先にする -/
def swapped (unpacked1 unpacked2 : Metadata) : Metadata × Metadata :=
  if unpacked2.size > unpacked1.size then (unpacked2, unpacked1) else (unpacked1, unpacked2)

/-- `metadata_equal`。違う名前の list は求められたら作る。 -/
def equal (md1 md2 : Option Bytes) (diff : Bool) : Bool × List Bytes :=
  if md1 = none ∧ md2 = none then (true, [])
  else if diff = false ∧ md1.map (cstr · |>.length) ≠ md2.map (cstr · |>.length) then (false, [])
  else
    let unpacked := swapped ((md1.map unpack).getD ∅) ((md2.map unpack).getD ∅)
    let wrong := unpacked.1.toList.filter fun kv => unpacked.2[kv.1]? != some kv.2
    (wrong.isEmpty, if diff then (wrong.map Prod.fst).reverse else [])

/-- 比較の結果と list が unpack したものの違いを表す -/
def EqualSound (m1 m2 : Bytes) : Prop :=
  (∀ diff, (equal (some m1) (some m2) diff).1 = true ↔ unpack m1 = unpack m2) ∧
    ∀ k, k ∈ (equal (some m1) (some m2) true).2 ↔ (unpack m1)[k]? ≠ (unpack m2)[k]?

variable {h₁ h₂ : Metadata} {k : Bytes}

theorem wrong_eq_nil_iff (hsize : h₂.size ≤ h₁.size) :
    h₁.toList.filter (fun kv => h₂[kv.1]? != some kv.2) = [] ↔ h₁ = h₂ := by
  rw [filter_eq_nil_iff]
  constructor
  · intro hall
    have hsub : h₁.toList ⊆ h₂.toList := fun kv hkv =>
      mem_toList_iff_getElem?_eq_some.mpr (by simpa using hall kv hkv)
    have hnodup : h₁.toList.Nodup := distinct_keys_toList.imp fun hne heq =>
      hne (LawfulEqCmp.compare_eq_iff_eq.mpr (congrArg Prod.fst heq))
    have hperm := (subperm_of_subset hnodup hsub).perm_of_length_le
      (by rwa [length_toList, length_toList])
    refine ext_getElem? fun k => Option.ext fun v => ?_
    rw [← mem_toList_iff_getElem?_eq_some, hperm.mem_iff, mem_toList_iff_getElem?_eq_some]
  · rintro rfl kv hkv
    simp [mem_toList_iff_getElem?_eq_some.mp hkv]

theorem mem_wrong_iff :
    k ∈ ((h₁.toList.filter fun kv => h₂[kv.1]? != some kv.2).map Prod.fst).reverse ↔
      k ∈ h₁ ∧ h₁[k]? ≠ h₂[k]? := by
  have hmem : ∀ kv, kv ∈ h₁.toList.filter (fun kv => h₂[kv.1]? != some kv.2) ↔
      h₁[kv.1]? = some kv.2 ∧ h₁[kv.1]? ≠ h₂[kv.1]? := by
    intro kv
    rw [mem_filter, mem_toList_iff_getElem?_eq_some, bne_iff_ne]
    exact and_congr_right fun hget => by rw [hget, ne_comm]
  rw [mem_reverse, mem_map, mem_iff_isSome_getElem?, Option.isSome_iff_exists]
  constructor
  · rintro ⟨kv, hkv, rfl⟩
    exact ⟨⟨_, ((hmem kv).mp hkv).1⟩, ((hmem kv).mp hkv).2⟩
  · rintro ⟨⟨v, hv⟩, hne⟩
    exact ⟨(k, v), (hmem _).mpr ⟨hv, hne⟩, rfl⟩

theorem swapped_spec (h₁ h₂ : Metadata) : (swapped h₁ h₂).2.size ≤ (swapped h₁ h₂).1.size ∧
    ((swapped h₁ h₂).1 = (swapped h₁ h₂).2 ↔ h₁ = h₂) ∧
    ∀ k : Bytes, (swapped h₁ h₂).1[k]? ≠ (swapped h₁ h₂).2[k]? ↔ h₁[k]? ≠ h₂[k]? := by
  unfold swapped
  split
  · exact ⟨Nat.le_of_lt ‹_›, eq_comm, fun _ => ne_comm⟩
  · exact ⟨Nat.not_lt.mp ‹_›, Iff.rfl, fun _ => Iff.rfl⟩

/-- **`metadata_equal` が違いを表すのは、同じ内容の文字列の長さが同じで、少ない側の名前が多い側にすべてあるとき。** -/
theorem equal_sound_iff (m1 m2 : Bytes) : EqualSound m1 m2 ↔
    (unpack m1 = unpack m2 → (cstr m1).length = (cstr m2).length) ∧
      ∀ k ∈ (swapped (unpack m1) (unpack m2)).2, k ∈ (swapped (unpack m1) (unpack m2)).1 := by
  obtain ⟨hsize, hsame, hkey⟩ := swapped_spec (unpack m1) (unpack m2)
  simp only [EqualSound, equal, Option.map_some, Option.getD_some, reduceCtorEq, and_self, if_false,
    ne_eq, Option.some.injEq]
  refine and_congr ⟨fun h heq => ?_, fun hlen diff => ?_⟩ ?_
  · by_contra hlen
    have hfalse := (h false).mpr heq
    rw [if_pos ⟨rfl, hlen⟩] at hfalse
    cases hfalse
  · split
    · rename_i hshort
      exact iff_of_false nofun fun heq => hshort.2 (hlen heq)
    · rw [List.isEmpty_iff, wrong_eq_nil_iff hsize, hsame]
  simp only [false_and, if_false, if_true, mem_wrong_iff, ← hkey, and_iff_right_iff_imp]
  constructor
  · intro h k hk
    by_contra hbig
    refine hbig (h k ?_)
    rw [getElem?_eq_none hbig]
    exact Ne.symm (Option.isSome_iff_ne_none.mp (mem_iff_isSome_getElem?.mp hk))
  · intro h k hne
    by_contra hbig
    rw [getElem?_eq_none hbig, getElem?_eq_none (hbig ∘ h k)] at hne
    exact hne rfl

/-- 少ない側だけにある名前は違いの list に現れない -/
theorem smaller_key_not_listed :
    (equal (some (ascii "a=1")) (some (ascii "b=1;c=1")) true).2 = [ascii "c", ascii "b"] ∧
      (unpack (ascii "a=1"))[ascii "a"]? ≠ (unpack (ascii "b=1;c=1"))[ascii "a"]? := by
  decide +kernel

/-! ## pack と merge -/

def token (kv : Bytes × Bytes) : Bytes := kv.1 ++ 61 :: kv.2

/-- `metadata_pack`。`order` は hash table を辿る順。 -/
def pack (order : List (Bytes × Bytes)) : Bytes := [59].intercalate (order.map token)

/-- `metadata_merge` -/
def merge (base : Metadata) (order : List (Bytes × Bytes)) : Metadata :=
  order.foldl (updateAt fun _ v => v) base

/-- 名前は空でなく、`=`、`;`、端の空白を含まず、値は `;` を含まない -/
structure Clean (kv : Bytes × Bytes) : Prop where
  ne : kv.1 ≠ []
  strip : strip kv.1 = kv.1
  eqFree : 61 ∉ kv.1
  sepFree : 59 ∉ token kv
  nulFree : 0 ∉ token kv

variable {h h₁ h₂ : Metadata} {order order₁ order₂ : List (Bytes × Bytes)}

theorem merge_toList (horder : order.Perm h.toList) : merge ∅ order = h := by
  refine ExtTreeMap.ext_getElem? fun k => Option.ext fun v => ?_
  have hne := (horder.pairwise_iff fun hab => Ne.symm hab).mpr (pairwise_ne_toList h)
  rw [merge, getElem?_foldl_set_iff hne, horder.mem_iff, ExtTreeMap.mem_toList_iff_getElem?_eq_some]

theorem unpack_eq {s : Bytes} (hs : 0 ∉ s) :
    unpack s = ((s.splitOn 59).takeWhile (· ≠ [])).foldl insertToken ∅ := by
  rw [unpack, cstr_eq_self hs]
  rcases eq_or_ne s [] with rfl | hne
  · rfl
  · rw [strsplit_eq_splitOn hne (.inl rfl)]

section

variable (hclean : ∀ kv ∈ order, Clean kv)
include hclean

theorem foldl_insertToken : (order.map token).foldl insertToken h = h.merge order := by
  rw [merge, foldl_map]
  refine foldl_ext _ _ _ fun h kv hkv => ?_
  have hkv := hclean kv hkv
  rw [insertToken, token, splitAtChar_append hkv.eqFree]
  change (if strip kv.1 = [] then h else h.insert (strip kv.1) kv.2) = h.insert kv.1 kv.2
  rw [hkv.strip, if_neg hkv.ne]

theorem zero_notMem_pack : 0 ∉ pack order := by
  rw [pack, mem_intercalate_iff (by decide)]
  rintro ⟨tok, htok, hzero⟩
  obtain ⟨kv, hkv, rfl⟩ := mem_map.mp htok
  exact (hclean kv hkv).nulFree hzero

/-- 空の文字列は 1 つの空の token になり、そこで止まる -/
theorem tokens_pack (rest : List Bytes) :
    ((pack order).splitOn 59 ++ rest).takeWhile (· ≠ []) =
      order.map token ++ if order = [] then [] else rest.takeWhile (· ≠ []) := by
  split
  · rename_i hnil
    rw [hnil]
    rfl
  rename_i hne
  rw [pack, splitOn_intercalate _ (forall_mem_map.mpr fun kv hkv => (hclean kv hkv).sepFree)
    (by simpa using hne)]
  refine takeWhile_append_of_pos (forall_mem_map.mpr fun kv _ => ?_)
  simp [token]

end

/-- **pack して unpack すると元に戻り、つないだものは merge になる。** ただし、前が空なら後も空であるとき。 -/
theorem pack_roundtrip_iff (horder₁ : order₁.Perm h₁.toList) (horder₂ : order₂.Perm h₂.toList)
    (hclean₁ : ∀ kv ∈ order₁, Clean kv) (hclean₂ : ∀ kv ∈ order₂, Clean kv) :
    (unpack (pack order₁) = h₁ ∧ unpack (pack order₁ ++ 59 :: pack order₂) = h₁.merge order₂) ↔
      (h₁ = ∅ → h₂ = ∅) := by
  have htake₁ := tokens_pack hclean₁ []
  have htake₂ := tokens_pack hclean₂ []
  rw [append_nil, takeWhile_nil, ite_self, append_nil] at htake₁ htake₂
  have hzero : 0 ∉ pack order₁ ++ 59 :: pack order₂ := by
    simp [zero_notMem_pack hclean₁, zero_notMem_pack hclean₂]
  have hnil : order₁ = [] ↔ h₁ = ∅ := by
    rw [← ExtTreeMap.toList_eq_nil_iff]
    exact ⟨fun h => (h ▸ horder₁).symm.eq_nil, fun h => (h ▸ horder₁).eq_nil⟩
  rw [unpack_eq (zero_notMem_pack hclean₁), htake₁, foldl_insertToken hclean₁,
    merge_toList horder₁, and_iff_right rfl, unpack_eq hzero, splitOn_append_cons_self,
    tokens_pack hclean₁, htake₂, foldl_append, foldl_insertToken hclean₁,
    merge_toList horder₁]
  split
  · rename_i hempty
    rw [hnil.mp hempty, merge_toList horder₂]
    exact ⟨fun h _ => h.symm, fun h => (h rfl).symm⟩
  · rename_i hne
    rw [foldl_insertToken hclean₂]
    exact iff_of_true rfl fun h => absurd (hnil.mpr h) hne

/-- 後の組が前の組の値を書き換える -/
theorem pack_roundtrip_overwrite :
    unpack (pack [([97], [49]), ([98], [50])]) = merge ∅ [([97], [49]), ([98], [50])] ∧
      unpack (pack [([97], [49]), ([98], [50])] ++ 59 :: pack [([98], [51])]) =
        merge (merge ∅ [([97], [49]), ([98], [50])]) [([98], [51])] := by
  have hclean : ∀ kv ∈ [(([97], [49]) : Bytes × Bytes), ([98], [50]), ([98], [51])], Clean kv := by
    simp only [forall_mem_cons, not_mem_nil, false_imp_iff, implies_true, and_true]
    refine ⟨?_, ?_, ?_⟩ <;> exact ⟨by decide, by decide, by decide, by decide, by decide⟩
  have horder : [(([98], [51]) : Bytes × Bytes)] = (merge ∅ [([98], [51])]).toList := by decide +kernel
  refine (pack_roundtrip_iff (.of_eq (by decide +kernel)) (.of_eq horder)
    (fun kv hkv => hclean kv ?_) (fun kv hkv => hclean kv ?_)).mpr fun h => ?_
  · simp only [mem_cons, not_mem_nil, or_false] at hkv ⊢
    tauto
  · simp only [mem_cons, not_mem_nil, or_false] at hkv ⊢
    tauto
  · exact absurd (congrArg ExtTreeMap.size h) (by decide +kernel)

/-- 前が空なら、後の組は失われる -/
theorem merge_after_empty_lost :
    (unpack (pack [] ++ 59 :: pack [(ascii "b", ascii "2")])).toList = [] ∧
      (merge ∅ [(ascii "b", ascii "2")]).toList = [(ascii "b", ascii "2")] := by
  decide +kernel

end Metadata

end Redcurrant.Metautils
