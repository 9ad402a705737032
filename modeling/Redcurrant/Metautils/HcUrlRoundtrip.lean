import Redcurrant.Metautils.HcUrlOptions

/-!
# URL の往復

読んだ URL は namespace と後ろの `text` で決まり（`Reads`）、書いた文字列の後ろは `printed text` である。往復は 2 つが同じ
reference、path、option を持つこと（`Same`）。
-/

namespace Redcurrant.Metautils

open Infra List Option

variable {s text n : Bytes} {options : List Bytes}

/-! ## 読んだもの -/

/-- 最初の `/` の後ろ、重なる `/` を除いた文字列 -/
def refText (s : Bytes) : Bytes := ((splitAtChar 47 (urlBody s)).map fun q => lstrip q.2).getD []

/-- 最後の `?` の前 -/
def cutText (text : Bytes) : Bytes := ((queryText text).map Prod.fst).getD text

/-- 最後の `?` の後ろから読む option の列 -/
def optionList (text : Bytes) : List Bytes :=
  (strsplit 38 0 (((queryText text).map Prod.snd).getD [])).foldl addPiece []

/-- `?` を探す部分。path があれば path、無ければ reference。 -/
def tailText (text : Bytes) : Bytes := (pathText text).getD text

/-- 読む reference -/
def refnameText (text : Bytes) : Bytes :=
  if pathText text = none then rstrip (cutText text) else rstrip (text.takeWhile (· ≠ 47))

/-- namespace `n` と後ろの文字列 `text` から読んだ URL -/
structure Reads (n text : Bytes) (u : HcUrl) : Prop where
  ns : u.ns = some n
  refname : u.refname = some (refnameText text)
  path : u.path = (pathText text).map cutText
  options : u.options = optionList (tailText text)
  whole : u.whole = none

theorem options_empty (text : Bytes) :
    (if 63 ∈ text then hcUrlEmpty.parseOptions ((queryText text).map Prod.snd) else hcUrlEmpty) =
      { hcUrlEmpty with options := optionList text } := by
  split
  · rw [parseOptions_eq]
    simp [hcUrlEmpty, optionList]
  rename_i h
  have hquery : queryText text = none := by rw [queryText, splitAtLast_eq_none.mpr h]; rfl
  rw [optionList, hquery]
  rfl

/-- **`/` のある URL はその前と後ろから読まれる。** -/
theorem reads_init {rest : Bytes} (h : splitAtChar 47 (urlBody s) = some (n, rest)) :
    ∃ u, hcUrlInit s = some u ∧ Reads n (lstrip rest) u := by
  obtain ⟨hbody, hn⟩ := eq_append_of_splitAtChar h
  have hne : urlBody s ≠ [] := by rw [hbody]; simp
  have hns := rstrip_ns hn rest
  rw [← hbody] at hns
  unfold hcUrlInit HcUrl.parseUrl
  simp only [if_neg hne, h, options_empty]
  cases hpath : pathText (lstrip rest) with
  | none =>
    refine ⟨_, rfl, ?_⟩
    constructor
    · exact congrArg some hns
    · rw [refnameText, if_pos hpath]
      rfl
    · rw [hpath]
      rfl
    · rw [tailText, hpath]
      rfl
    · rfl
  | some path =>
    refine ⟨_, rfl, ?_⟩
    constructor
    · exact congrArg some hns
    · rw [refnameText, if_neg (by rw [hpath]; simp)]
    · rw [hpath]
      rfl
    · rw [tailText, hpath]
      rfl
    · rfl

/-! ## option の列 -/

/-- 読んだ option の列。名は重ならず、`=` があり、`&` と `?` は無い。 -/
structure Parsed (options : List Bytes) : Prop where
  nodup : (options.map optionName).Nodup
  eq : ∀ o ∈ options, 61 ∈ o
  amp : ∀ o ∈ options, 38 ∉ o
  query : ∀ o ∈ options, 63 ∉ o

variable {x o path ref : Bytes}

theorem queryText_eq_some (h : queryText text = some (x, o)) :
    text = x ++ 63 :: o ∧ 63 ∉ o ∧ o ≠ [] := by
  obtain ⟨hsplit, hne⟩ := filter_eq_some_iff.mp h
  obtain ⟨htext, hquery⟩ := eq_append_of_splitAtLast hsplit
  exact ⟨htext, hquery, by simpa using hne⟩

theorem queryText_append (hquery : 63 ∉ o) (hne : o ≠ []) :
    queryText (x ++ 63 :: o) = some (x, o) := by
  rw [queryText, splitAtLast_append hquery]
  simpa using hne

theorem mem_optionList {piece : Bytes} (h : queryText text = some (x, o))
    (hpiece : piece ∈ optionList text) : piece ∈ strsplit 38 0 o ∧ 61 ∈ piece := by
  rw [optionList, h] at hpiece
  exact (foldl_addPiece_nil _).2 piece hpiece

theorem optionList_of_none (h : queryText text = none) : optionList text = [] := by
  rw [optionList, h]
  rfl

theorem parsed_optionList (text : Bytes) : Parsed (optionList text) := by
  cases h : queryText text with
  | none =>
    rw [optionList_of_none h]
    exact ⟨nodup_nil, nofun, nofun, nofun⟩
  | some q =>
    obtain ⟨-, hquery, -⟩ := queryText_eq_some h
    refine ⟨(foldl_addPiece_nil _).1, fun piece hpiece => (mem_optionList h hpiece).2,
      fun piece hpiece => sep_notMem_of_mem_strsplit (mem_optionList h hpiece).1,
      fun piece hpiece hmem => hquery ?_⟩
    exact (mem_strsplit_iff (c := 38) (by decide)).mp ⟨piece, (mem_optionList h hpiece).1, hmem⟩

theorem optionList_eq_nil (h : queryText text = some (x, o)) : optionList text = [] ↔ 61 ∉ o := by
  have hlast := getLast_names (strsplit 38 0 o)
  have hlist : (strsplit 38 0 o).foldl addPiece [] = optionList text := by rw [optionList, h]; rfl
  rw [hlist] at hlast
  rw [← mem_strsplit_iff (c := 38) (by decide)]
  constructor
  · rintro hnil ⟨piece, hpiece, heq⟩
    rw [hnil, map_nil, getLast?_nil] at hlast
    have hnone := find?_eq_none.mp (map_eq_none_iff.mp hlast.symm) piece hpiece
    exact hnone (decide_eq_true heq)
  · intro hfree
    refine eq_nil_iff_forall_not_mem.mpr fun piece hpiece => hfree ?_
    exact ⟨piece, mem_optionList h hpiece⟩

theorem Parsed.reread (h : Parsed options) (hne : options ≠ []) :
    queryText (x ++ appendOptions options) = some (x, [38].intercalate options) ∧
      optionList (x ++ appendOptions options) = options.reverse := by
  have happend : appendOptions options = 63 :: [38].intercalate options := by
    rw [appendOptions, if_neg (by simpa using hne)]
  have hquery : 63 ∉ [38].intercalate options := by
    rw [mem_intercalate_iff (by decide)]
    rintro ⟨o, ho, hmem⟩
    exact h.query o ho hmem
  have hjoin : [38].intercalate options ≠ [] := by
    obtain ⟨o, ho⟩ := exists_mem_of_ne_nil _ hne
    exact ne_nil_of_mem ((mem_intercalate_iff (by decide)).mpr ⟨o, ho, h.eq o ho⟩)
  have htext := queryText_append (x := x) hquery hjoin
  rw [happend]
  refine ⟨htext, ?_⟩
  rw [optionList, htext, map_some, getD_some,
    strsplit_intercalate h.amp hne hjoin (.inl rfl), foldl_addPiece_reverse h.eq ?_,
    append_nil]
  rw [append_nil, map_reverse, nodup_reverse]
  exact h.nodup

/-! ## 書いたもの -/

/-- 全体の namespace の後ろ -/
def printed (text : Bytes) : Bytes :=
  refnameText text ++ ((pathText text).map fun path => 47 :: cutText path).getD [] ++
    appendOptions (optionList (tailText text))

theorem Reads.getWhole {u : HcUrl} (h : Reads n text u) (sha256 : Bytes → Bytes) :
    (u.getWhole sha256).2 = some (n ++ 47 :: printed text) := by
  have hpath : (u.path.map fun p => 47 :: p).getD [] =
      ((pathText text).map fun path => 47 :: cutText path).getD [] := by
    rw [h.path, Option.map_map]
    rfl
  simp only [HcUrl.getWhole, h.whole, HcUrl.has, h.ns, h.refname, h.options, hpath, printed]
  simp

theorem pathText_eq_some (h : pathText text = some path) :
    ∃ ref, text = ref ++ 47 :: path ∧ 47 ∉ ref ∧ path ≠ [] := by
  unfold pathText at h
  split at h
  · rename_i ref b path' hsplit
    cases h
    obtain ⟨htext, href⟩ := eq_append_of_splitAtChar hsplit
    exact ⟨ref, htext, href, cons_ne_nil _ _⟩
  · cases h

theorem pathText_append (h : 47 ∉ ref) :
    pathText (ref ++ 47 :: path) = if path = [] then none else some path := by
  rw [pathText, splitAtChar_append h]
  cases path <;> rfl

theorem pathText_eq_none : pathText text = none ↔ 47 ∉ text.dropLast := by
  by_cases hmem : 47 ∈ text
  · obtain ⟨ref, path, rfl, href⟩ := eq_append_cons_of_mem hmem
    rw [pathText_append href, dropLast_append_of_ne_nil (cons_ne_nil _ _), mem_append]
    cases path with
    | nil => simp [href]
    | cons b path => simp
  · have hlast : 47 ∉ text.dropLast := fun h => hmem ((dropLast_sublist _).mem h)
    rw [pathText, splitAtChar_eq_none.mpr hmem]
    simp [hlast]

/-! ## 往復 -/

/-- 列の中の、名の値 -/
def optionIn (options : List Bytes) (k : Bytes) : Option Bytes :=
  (options.find? fun o => optionName o == k).map optionValue

theorem optionIn_reverse (h : Parsed options) (k : Bytes) :
    optionIn options.reverse k = optionIn options k := by
  rw [optionIn, find_reverse h.nodup, optionIn]

/-- 同じ reference、path、option を持つ文字列 -/
structure Same (text text' : Bytes) : Prop where
  refname : refnameText text' = refnameText text
  path : (pathText text').map cutText = (pathText text).map cutText
  options : ∀ k, optionIn (optionList (tailText text')) k = optionIn (optionList (tailText text)) k

/-- 最後の option が `/` を含むなら、最初の option と同じ名 -/
def LastFits (o : Bytes) : Prop :=
  ∀ piece ∈ (strsplit 38 0 o).getLast?, 47 ∈ piece → 61 ∈ piece →
    ((strsplit 38 0 o).find? fun p => decide (61 ∈ p)).map optionName = some (optionName piece)

/-- namespace の後ろの文字列が往復する条件 -/
def Reprints (text : Bytes) : Prop :=
  match queryText (tailText text) with
  | none => True
  | some (x, o) =>
    if 61 ∈ o then pathText text = none → LastFits o
    else queryText x = none ∧ (pathText text ≠ none → x ≠ [])

instance (o : Bytes) : Decidable (LastFits o) := by
  unfold LastFits
  infer_instance

instance (text : Bytes) : Decidable (Reprints text) := by
  unfold Reprints
  split <;> infer_instance

theorem cutText_of_none (h : queryText text = none) : cutText text = text := by
  rw [cutText, h]
  rfl

theorem cutText_of_some (h : queryText text = some (x, o)) : cutText text = x := by
  rw [cutText, h]
  rfl

theorem length_cutText_lt {q : Bytes × Bytes} (h : queryText text = some q) :
    (cutText text).length < text.length := by
  obtain ⟨htext, -, -⟩ := queryText_eq_some h
  rw [cutText_of_some h, htext, length_append, length_cons]
  omega

theorem refnameText_of_path (href : 47 ∉ ref) (hne : path ≠ []) :
    refnameText (ref ++ 47 :: path) = ref := by
  have htake : (ref ++ 47 :: path).takeWhile (· ≠ 47) = ref := by
    have hsplit := splitAtChar_append (b := path) href
    rw [splitAtChar, if_pos (by simp)] at hsplit
    exact (Prod.mk.inj (some.inj hsplit)).1
  rw [refnameText, pathText_append href, if_neg hne, if_neg (by simp), htake, rstrip_eq_self href]

/-- **path のある文字列の往復。** -/
theorem same_printed_of_path (hpath : pathText text = some path) :
    Same text (printed text) ↔ optionList path ≠ [] ∨ (queryText (cutText path) = none ∧
      cutText path ≠ []) := by
  obtain ⟨ref, htext, href, hne⟩ := pathText_eq_some hpath
  have htail : tailText text = path := by rw [tailText, hpath]; rfl
  have hname : refnameText text = ref := by rw [htext, refnameText_of_path href hne]
  have hprinted : printed text =
      ref ++ 47 :: (cutText path ++ appendOptions (optionList path)) := by
    rw [printed, hname, hpath, htail]
    simp
  -- path と option を比べればよい
  have hsame : ∀ path', path' ≠ [] → (Same text (ref ++ 47 :: path') ↔
      cutText path' = cutText path ∧
        ∀ k, optionIn (optionList path') k = optionIn (optionList path) k) := by
    intro path' hne'
    have hpath' : pathText (ref ++ 47 :: path') = some path' := by
      rw [pathText_append href, if_neg hne']
    have htail' : tailText (ref ++ 47 :: path') = path' := by rw [tailText, hpath']; rfl
    constructor
    · intro h
      have hcut := h.path
      rw [hpath', hpath] at hcut
      have hopts := h.options
      rw [htail', htail] at hopts
      exact ⟨some.inj hcut, hopts⟩
    · rintro ⟨hcut, hopts⟩
      refine ⟨by rw [refnameText_of_path href hne', hname], by simp [hpath', hpath, hcut], ?_⟩
      rw [htail', htail]
      exact hopts
  rw [hprinted]
  by_cases hnil : optionList path = []
  · rw [hnil, appendOptions, isEmpty_nil, if_pos rfl, append_nil]
    by_cases hcut : cutText path = []
    · -- 空の path は、読み直すと無い
      refine iff_of_false (fun h => ?_) (by simp [hcut])
      have := h.path
      rw [hcut, pathText_append href, hpath] at this
      cases this
    rw [hsame _ hcut]
    cases hquery : queryText (cutText path) with
    | none =>
      refine iff_of_true ⟨cutText_of_none hquery, fun k => ?_⟩ (.inr ⟨rfl, hcut⟩)
      rw [optionList_of_none hquery, hnil]
    | some q =>
      refine iff_of_false (fun h => ?_) (by simp)
      have := length_cutText_lt hquery
      rw [h.1] at this
      omega
  · obtain ⟨hquery, hlist⟩ := (parsed_optionList path).reread (x := cutText path) hnil
    rw [hsame _ (ne_nil_of_length_pos (by simp [appendOptions, hnil]))]
    refine iff_of_true ⟨cutText_of_some hquery, fun k => ?_⟩ (.inl hnil)
    rw [hlist, optionIn_reverse (parsed_optionList path)]

/-- `/` で終わる option が末尾に来るのは最初の option と同じ名のとき -/
theorem lastFits_iff (h : queryText text = some (x, o)) (ho : 47 ∉ o.dropLast)
    (hne : optionList text ≠ []) :
    47 ∉ ([38].intercalate (optionList text)).dropLast ↔ LastFits o := by
  obtain ⟨-, -, honil⟩ := queryText_eq_some h
  have hsplit : strsplit 38 0 o = o.splitOn 38 := strsplit_eq_splitOn honil (.inl rfl)
  obtain ⟨pieces, q, hpieces⟩ : ∃ pieces q, strsplit 38 0 o = pieces ++ [q] :=
    (eq_nil_or_concat' _).resolve_left (by rw [hsplit]; exact splitOnP_ne_nil _ _)
  obtain ⟨options, last, hoptions⟩ : ∃ options last, optionList text = options ++ [last] :=
    (eq_nil_or_concat' _).resolve_left hne
  -- 元の文字列では `/` は最後の片の末尾にしか無い
  have hfree : (∀ p ∈ pieces, 47 ∉ p) ∧ 47 ∉ q.dropLast := by
    rw [← notMem_dropLast_intercalate (c := 38) (by decide), ← hpieces, hsplit, intercalate_splitOn]
    exact ho
  have hmem : ∀ p ∈ optionList text, 47 ∈ p → p = q ∧ 61 ∈ q := by
    intro p hp hslash
    obtain ⟨hpiece, heq⟩ := mem_optionList h hp
    rw [hpieces] at hpiece
    rcases mem_append.mp hpiece with hin | hin
    · exact absurd hslash (hfree.1 p hin)
    · rw [mem_singleton] at hin
      exact ⟨hin, hin ▸ heq⟩
  have hfirst : ((strsplit 38 0 o).find? fun p => decide (61 ∈ p)).map optionName =
      some (optionName last) := by
    have hlast := getLast_names (strsplit 38 0 o)
    have hlist : (strsplit 38 0 o).foldl addPiece [] = optionList text := by rw [optionList, h]; rfl
    rw [hlist, hoptions, map_append, map_singleton, getLast?_concat] at hlast
    exact hlast.symm
  have hlast : 47 ∉ last.dropLast := by
    intro hin
    have := (hmem last (by simp [hoptions]) ((dropLast_sublist _).mem hin)).1
    exact hfree.2 (this ▸ hin)
  have hfits : LastFits o ↔ (47 ∈ q → 61 ∈ q → optionName last = optionName q) := by
    rw [LastFits, hfirst, hpieces]
    simp
  rw [hoptions, notMem_dropLast_intercalate (by decide), hfits, and_iff_left hlast]
  constructor
  · intro hout hslash heq
    have hin : q ∈ optionList text := by
      rw [optionList, h, map_some, getD_some, hpieces]
      exact last_mem_foldl_addPiece heq
    rw [hoptions] at hin
    rcases mem_append.mp hin with hin | hin
    · exact absurd hslash (hout q hin)
    · rw [mem_singleton.mp hin]
  · intro hname p hp hslash
    obtain ⟨rfl, heq⟩ := hmem p (by simp [hoptions, hp]) hslash
    have hnodup := (parsed_optionList text).nodup
    rw [hoptions, map_append] at hnodup
    exact (nodup_append.mp hnodup).2.2 _ (mem_map_of_mem hp) _ mem_cons_self (hname hslash heq).symm

/-! path の無い文字列では `/` は末尾にしか無く、reference を読むときに除かれる。 -/

theorem tailText_of_none (h : pathText text = none) : tailText text = text := by
  rw [tailText, h]
  rfl

theorem refnameText_of_none (h : pathText text = none) :
    refnameText text = rstrip (cutText text) := by
  rw [refnameText, if_pos h]

theorem printed_of_none (h : pathText text = none) :
    printed text = rstrip (cutText text) ++ appendOptions (optionList text) := by
  rw [printed, h, refnameText_of_none h, tailText_of_none h]
  simp

theorem rstrip_of_dropLast (h : 47 ∉ text.dropLast) :
    47 ∉ rstrip text ∧ (rstrip text = text ∨ text = rstrip text ++ [47]) := by
  rcases eq_nil_or_concat' text with rfl | ⟨r, b, rfl⟩
  · exact ⟨not_mem_nil, .inl rfl⟩
  rw [dropLast_concat] at h
  by_cases hb : b = 47
  · have hstrip : rstrip (r ++ [b]) = r := by
      rw [rstrip, rdropWhile_concat_pos _ _ _ (by simp [hb])]
      exact rstrip_eq_self h
    rw [hstrip, hb]
    exact ⟨h, .inr rfl⟩
  · have hfree : 47 ∉ r ++ [b] := by simp [h, Ne.symm hb]
    rw [rstrip_eq_self hfree]
    exact ⟨hfree, .inl rfl⟩

theorem query_last_of_none (h : queryText text = none) (hmem : 63 ∈ text) :
    ∃ r, text = r ++ [63] := by
  cases hsplit : splitAtLast 63 text with
  | none => exact absurd hmem (splitAtLast_eq_none.mp hsplit)
  | some q =>
    obtain ⟨r, o⟩ := q
    obtain ⟨htext, -⟩ := eq_append_of_splitAtLast hsplit
    have ho : o = [] := by
      rw [queryText, hsplit] at h
      simpa using h
    exact ⟨r, by rw [htext, ho]⟩

theorem same_printed_plain (hpath : pathText text = none) (hquery : queryText text = none) :
    Same text (printed text) := by
  obtain ⟨hfree, hstrip⟩ := rstrip_of_dropLast (pathText_eq_none.mp hpath)
  have hquery' : queryText (rstrip text) = none := by
    rcases hstrip with heq | heq
    · rw [heq, hquery]
    have hmem : 63 ∉ rstrip text := by
      intro hmem
      obtain ⟨r, hr⟩ := query_last_of_none hquery (heq ▸ mem_append_left _ hmem)
      rw [heq] at hr
      have := (append_inj' hr rfl).2
      cases this
    rw [queryText, splitAtLast_eq_none.mpr hmem]
    rfl
  have hpath' : pathText (rstrip text) = none :=
    pathText_eq_none.mpr fun h => hfree ((dropLast_sublist _).mem h)
  have hprinted : printed text = rstrip text := by
    rw [printed_of_none hpath, cutText_of_none hquery, optionList_of_none hquery]
    exact append_nil _
  rw [hprinted]
  constructor
  · rw [refnameText_of_none hpath', refnameText_of_none hpath, cutText_of_none hquery',
      cutText_of_none hquery, rstrip_eq_self hfree]
  · rw [hpath', hpath]
  · intro k
    rw [tailText_of_none hpath', tailText_of_none hpath, optionList_of_none hquery',
      optionList_of_none hquery]

/-- **path の無い文字列の往復。** -/
theorem same_printed_query (hpath : pathText text = none) (hquery : queryText text = some (x, o)) :
    Same text (printed text) ↔ if 61 ∈ o then LastFits o else queryText x = none := by
  obtain ⟨htext, -, hne⟩ := queryText_eq_some hquery
  have hslash := pathText_eq_none.mp hpath
  rw [htext, dropLast_append_of_ne_nil (cons_ne_nil _ _),
    dropLast_cons_of_ne_nil hne, mem_append, not_or, mem_cons, not_or] at hslash
  obtain ⟨hx, -, ho⟩ := hslash
  have hname : refnameText text = x := by
    rw [refnameText_of_none hpath, cutText_of_some hquery, rstrip_eq_self hx]
  have hprinted : printed text = x ++ appendOptions (optionList text) := by
    rw [printed_of_none hpath, cutText_of_some hquery, rstrip_eq_self hx]
  rw [hprinted]
  by_cases hnil : optionList text = []
  · have hpath' : pathText x = none :=
      pathText_eq_none.mpr fun h => hx ((dropLast_sublist _).mem h)
    rw [if_neg ((optionList_eq_nil hquery).mp hnil), hnil, appendOptions, isEmpty_nil,
      if_pos rfl, append_nil]
    cases hquery' : queryText x with
    | none =>
      refine iff_of_true ⟨?_, by rw [hpath', hpath], fun k => ?_⟩ rfl
      · rw [hname, refnameText_of_none hpath', cutText_of_none hquery', rstrip_eq_self hx]
      · rw [tailText_of_none hpath', tailText_of_none hpath, optionList_of_none hquery', hnil]
    | some q =>
      refine iff_of_false (fun h => ?_) nofun
      have hlt := length_cutText_lt hquery'
      obtain ⟨slashes, hslashes⟩ := rstrip_append (cutText x)
      have heq := h.refname
      rw [hname, refnameText_of_none hpath'] at heq
      rw [hslashes, heq, length_append] at hlt
      omega
  · obtain ⟨hread, hlist⟩ := (parsed_optionList text).reread (x := x) hnil
    have hjoin : [38].intercalate (optionList text) ≠ [] := (queryText_eq_some hread).2.2
    have hpath' : pathText (x ++ appendOptions (optionList text)) = none ↔ LastFits o := by
      rw [← lastFits_iff hquery ho hnil, pathText_eq_none, (queryText_eq_some hread).1,
        dropLast_append_of_ne_nil (cons_ne_nil _ _), dropLast_cons_of_ne_nil hjoin]
      simp [hx]
    rw [if_pos (by_contra fun h => hnil ((optionList_eq_nil hquery).mpr h)), ← hpath']
    constructor
    · intro h
      have := h.path
      rwa [hpath, map_none, map_eq_none_iff] at this
    · intro h
      refine ⟨?_, by rw [h, hpath], fun k => ?_⟩
      · rw [hname, refnameText_of_none h, cutText_of_some hread, rstrip_eq_self hx]
      · rw [tailText_of_none h, tailText_of_none hpath, hlist,
          optionIn_reverse (parsed_optionList text)]

theorem same_printed_iff (text : Bytes) : Same text (printed text) ↔ Reprints text := by
  unfold Reprints
  cases hpath : pathText text with
  | none =>
    rw [tailText_of_none hpath]
    cases hquery : queryText text with
    | none => exact iff_of_true (same_printed_plain hpath hquery) trivial
    | some q =>
      rw [same_printed_query hpath hquery]
      simp
  | some path =>
    have htail : tailText text = path := by rw [tailText, hpath]; rfl
    obtain ⟨-, -, -, hne⟩ := pathText_eq_some hpath
    rw [same_printed_of_path hpath, htail]
    cases hquery : queryText path with
    | none => simp [cutText_of_none hquery, hquery, hne]
    | some q =>
      obtain ⟨x, o⟩ := q
      have hnil := optionList_eq_nil hquery
      rw [cutText_of_some hquery]
      by_cases ho : 61 ∈ o
      · simp [ho, hnil]
      · simp [ho, hnil]

/-! ## 主定理 -/

def RoundTrips (sha256 : Bytes → Bytes) (u : HcUrl) : Prop :=
  ∃ whole u', (u.getWhole sha256).2 = some whole ∧ hcUrlInit whole = some u' ∧
    u'.ns = u.ns ∧ u'.refname = u.refname ∧ u'.path = u.path ∧
      ∀ k, u'.getOptionValue k = u.getOptionValue k

theorem slash_of_refname {u : HcUrl} (h : hcUrlInit s = some u) (href : u.refname ≠ none) :
    ∃ n rest, splitAtChar 47 (urlBody s) = some (n, rest) := by
  cases hsplit : splitAtChar 47 (urlBody s) with
  | some q => exact ⟨q.1, q.2, rfl⟩
  | none =>
    refine absurd ?_ href
    unfold hcUrlInit HcUrl.parseUrl at h
    simp only [hsplit] at h
    by_cases hbody : urlBody s = []
    · rw [if_pos hbody] at h
      cases h
    rw [if_neg hbody] at h
    cases h
    rfl

theorem urlBody_print (hn : 47 ∉ n) (hne : n ≠ []) (htext : text.head? ≠ some 47) :
    urlBody (n ++ 47 :: text) = n ++ 47 :: text := by
  have hscheme : ∀ scheme : Bytes, 47 ∉ scheme →
      hasPrefix (n ++ 47 :: text) (scheme ++ [47, 47]) = false := by
    intro scheme hs
    by_contra hpre
    obtain ⟨rest, hrest⟩ : scheme ++ [47, 47] <+: n ++ 47 :: text := by simpa [hasPrefix] using hpre
    have hsplit := splitAtChar_append (b := text) hn
    rw [← hrest, append_assoc] at hsplit
    have := (splitAtChar_append (b := 47 :: rest) hs).symm.trans hsplit
    simp only [some.injEq, Prod.mk.injEq] at this
    exact htext (by rw [← this.2]; rfl)
  have hgrid := hscheme (ascii "grid:") (by decide)
  have hhc := hscheme (ascii "hc:") (by decide)
  have hredc := hscheme (ascii "redc:") (by decide)
  have hhead : (n ++ 47 :: text).head? ≠ some 47 := by
    obtain ⟨b, n, rfl⟩ := exists_cons_of_ne_nil hne
    intro h
    exact hn (by simp at h; simp [h])
  rw [urlBody, show ascii "grid://" = ascii "grid:" ++ [47, 47] from rfl, hgrid,
    show ascii "hc://" = ascii "hc:" ++ [47, 47] from rfl, hhc,
    show ascii "redc://" = ascii "redc:" ++ [47, 47] from rfl, hredc]
  exact lstrip_eq_self hhead

theorem head_printed (h : text.head? ≠ some 47) : (printed text).head? ≠ some 47 := by
  cases hpath : pathText text with
  | some path =>
    obtain ⟨ref, htext, href, hne⟩ := pathText_eq_some hpath
    have hname : refnameText text = ref := by rw [htext, refnameText_of_path href hne]
    cases ref with
    | nil => exact absurd (by rw [htext]; rfl) h
    | cons b ref =>
      rw [printed, hname]
      simpa [htext] using h
  | none =>
    obtain ⟨slashes, hslashes⟩ := rstrip_append (cutText text)
    obtain ⟨query, hquery⟩ : ∃ query, text = cutText text ++ query := by
      cases hquery : queryText text with
      | none => exact ⟨[], by rw [cutText_of_none hquery, append_nil]⟩
      | some q =>
        rw [cutText_of_some hquery]
        exact ⟨_, (queryText_eq_some hquery).1⟩
    rw [printed_of_none hpath]
    cases hname : rstrip (cutText text) with
    | nil =>
      unfold appendOptions
      split
      · simp
      · simp
    | cons b name =>
      rw [hquery, hslashes, hname] at h
      simpa using h

/-- **読んだ URL が往復するのは namespace の後ろが条件を満たすとき。** -/
theorem roundTrips_iff (sha256 : Bytes → Bytes) {u : HcUrl} (h : hcUrlInit s = some u)
    (href : u.refname ≠ none) : RoundTrips sha256 u ↔ Reprints (refText s) := by
  obtain ⟨n, rest, hsplit⟩ := slash_of_refname h href
  obtain ⟨u₀, hu₀, hreads⟩ := reads_init hsplit
  rw [h] at hu₀
  cases hu₀
  obtain ⟨hbody, hn⟩ := eq_append_of_splitAtChar hsplit
  have hne : n ≠ [] := by
    rintro rfl
    exact lstrip_head _ (by rw [← urlBody, hbody]; rfl)
  have htext : refText s = lstrip rest := by rw [refText, hsplit]; rfl
  have hhead := head_printed (lstrip_head rest)
  have hprint : splitAtChar 47 (urlBody (n ++ 47 :: printed (lstrip rest))) =
      some (n, printed (lstrip rest)) := by
    rw [urlBody_print hn hne hhead, splitAtChar_append hn]
  obtain ⟨u', hu', hreads'⟩ := reads_init hprint
  rw [lstrip_eq_self hhead] at hreads'
  rw [htext, ← same_printed_iff]
  constructor
  · rintro ⟨whole, u'', hwhole, hinit, -, hrefname, hpath, hoptions⟩
    rw [hreads.getWhole] at hwhole
    cases hwhole
    rw [hu'] at hinit
    cases hinit
    rw [hreads'.refname, hreads.refname] at hrefname
    rw [hreads'.path, hreads.path] at hpath
    refine ⟨some.inj hrefname, hpath, fun k => ?_⟩
    rw [← hreads'.options, ← hreads.options]
    exact hoptions k
  · intro hsame
    refine ⟨_, u', hreads.getWhole sha256, hu', by rw [hreads'.ns, hreads.ns],
      by rw [hreads'.refname, hreads.refname, hsame.refname],
      by rw [hreads'.path, hreads.path, hsame.path], fun k => ?_⟩
    have hoptions := hsame.options k
    rwa [← hreads'.options, ← hreads.options] at hoptions

/-- `ns/ref/path?a=1&b=2` は往復する -/
theorem roundTrips_path : ∃ u, hcUrlInit (ascii "ns/ref/path?a=1&b=2") = some u ∧
    u.refname ≠ none ∧ RoundTrips id u := by
  obtain ⟨u, hinit, hname⟩ : ∃ u, hcUrlInit (ascii "ns/ref/path?a=1&b=2") = some u ∧
      u.refname = some (ascii "ref") := ⟨_, rfl, by decide⟩
  have href : u.refname ≠ none := by rw [hname]; nofun
  exact ⟨u, hinit, href, (roundTrips_iff id hinit href).mpr (by decide)⟩

/-- `ns/a?b=1?c` は往復しない。reference の `a?b=1` が option を含む。 -/
theorem query_in_refname : ∃ u, hcUrlInit (ascii "ns/a?b=1?c") = some u ∧
    u.refname = some (ascii "a?b=1") ∧ ¬RoundTrips id u := by
  refine ⟨_, rfl, by decide, ?_⟩
  rintro ⟨whole, u', hwhole, hinit, -, hrefname, -⟩
  have hw : whole = ascii "ns/a?b=1" := (some.inj hwhole).symm.trans (by decide)
  have hu' : u'.refname = some (ascii "a") := by
    rw [hw] at hinit
    cases hinit
    decide
  rw [hu'] at hrefname
  exact absurd hrefname (by decide)

end Redcurrant.Metautils
