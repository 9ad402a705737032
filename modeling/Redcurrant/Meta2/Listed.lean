import Redcurrant.Infra.Regex
import Redcurrant.Meta2.Listing

/-!
# 一覧に入る名前

prefix を与えた一覧（`prefix_listing_iff`）と、条件の無い一覧に入る名前。
-/

namespace Redcurrant.Meta2

open Infra Sqliterepo List RowTable

/-! ## literal の値 -/

theorem literalValue_quotes (s : Bytes) :
    literalValue (quote :: quote :: s) = (literalValue s).map (quote :: ·) := by
  rfl

theorem literalValue_cut {d : UInt8} (s : Bytes) (hd : d ≠ quote) :
    literalValue (quote :: d :: s) = none := by
  exact if_neg hd

theorem literalValue_cons {c : UInt8} (s : Bytes) (hc : c ≠ quote) :
    literalValue (c :: s) = (literalValue s).map (c :: ·) := by
  rw [literalValue.eq_def]
  exact if_neg hc

theorem literalValue_append {t : Bytes} (ht : quote ∉ t) (p : Bytes) :
    literalValue (p ++ t) = (literalValue p).map (· ++ t) := by
  induction p using literalValue.induct with
  | case1 =>
    induction t with
    | nil => rfl
    | cons c t ih =>
      obtain ⟨hc, ht⟩ := not_or.mp (mt mem_cons.mpr ht)
      rw [nil_append, literalValue_cons t (Ne.symm hc), ← nil_append t, ih ht]
      rfl
  | case2 =>
    cases t with
    | nil => rfl
    | cons d t => exact literalValue_cut t (Ne.symm (not_or.mp (mt mem_cons.mpr ht)).1)
  | case3 s ih =>
    rw [cons_append, cons_append, literalValue_quotes, literalValue_quotes, ih,
      Option.map_map, Option.map_map]
    rfl
  | case4 d s hd =>
    rw [cons_append, cons_append, literalValue_cut _ hd, literalValue_cut _ hd]
    rfl
  | case5 c s hc ih =>
    rw [cons_append, literalValue_cons _ hc, literalValue_cons _ hc, ih, Option.map_map,
      Option.map_map]
    rfl

theorem literalValue_of_notMem {n : Bytes} (h : quote ∉ n) : literalValue n = some n :=
  literalValue_append h []

theorem length_literalValue {p q : Bytes} (h : literalValue p = some q) :
    q.length ≤ p.length ∧ (quote ∈ p → q.length < p.length) := by
  induction p using literalValue.induct generalizing q with
  | case1 =>
    cases h
    simp
  | case2 => cases h
  | case3 s ih =>
    obtain ⟨v, hv, rfl⟩ := Option.map_eq_some_iff.mp h
    have := (ih hv).1
    exact ⟨by simp only [length_cons]; omega, fun _ => by simp only [length_cons]; omega⟩
  | case4 d s hd =>
    rw [literalValue_cut _ hd] at h
    cases h
  | case5 c s hc ih =>
    rw [literalValue_cons _ hc] at h
    obtain ⟨v, hv, rfl⟩ := Option.map_eq_some_iff.mp h
    obtain ⟨hle, hlt⟩ := ih hv
    refine ⟨Nat.succ_le_succ hle, fun hmem => Nat.succ_lt_succ (hlt ?_)⟩
    exact (mem_cons.mp hmem).resolve_left (Ne.symm hc)

/-! ## prefix を与えた一覧 -/

def prefixParams (p : Bytes) (maxkeys : Int) (allversion headers : Bool) : ListParams :=
  { allversion, headers, type := .s3 (some p) none maxkeys }

theorem exists_mem_runTree {rows : List Alias} {allversion : Bool} {name : Bytes} :
    (∃ a ∈ runTree false allversion rows, a.alias = name) ↔ ∃ a ∈ rows, a.alias = name := by
  have hsub : ∀ {l : List Alias} {a : Alias}, a ∈ listedRows false allversion l → a ∈ l := by
    intro l a ha
    cases l with
    | nil => cases ha
    | cons x l =>
      simp only [listedRows, Bool.false_and, Bool.false_eq_true, if_false] at ha
      split at ha
      · exact mem_reverse.mp ha
      · rw [mem_singleton.mp ha]
        exact mem_cons_self
  simp only [runTree, mem_flatMap, mem_orderBy, mem_dedup, mem_map]
  constructor
  · rintro ⟨a, ⟨n, -, ha⟩, rfl⟩
    exact ⟨a, (mem_versionList.mp (hsub ha)).1, rfl⟩
  · rintro ⟨a, ha, rfl⟩
    cases hl : versionList rows a.alias with
    | nil =>
      have := mem_versionList.mpr ⟨ha, rfl⟩
      rw [hl] at this
      cases this
    | cons x l =>
      have hx : x ∈ versionList rows a.alias := by rw [hl]; exact mem_cons_self
      refine ⟨x, ⟨a.alias, ⟨a, ha, rfl⟩, ?_⟩, (mem_versionList.mp hx).2⟩
      rw [hl]
      simp only [listedRows, Bool.false_and, Bool.false_eq_true, if_false]
      split <;> simp

namespace Base

variable {b : Base} {scan : Scan} {p name : Bytes} {a : Alias}

/-- 一覧が prefix で始まる名前をちょうど返す -/
def ListsPrefix (b : Base) (scan : Scan) (p : Bytes) : Prop :=
  ∀ maxkeys allversion headers, b.aliases.rows.length ≤ listLimit maxkeys →
    ∃ out, b.listAliases scan (prefixParams p maxkeys allversion headers) = .ok out ∧
      ∀ name, (∃ a ∈ aliasesIn out, a.alias = name) ↔
        (∃ a ∈ b.aliases.rows, a.alias = name) ∧ p <+: name

theorem listAliases_prefix (scan : Scan) {pattern : Bytes}
    (hp : literalValue (p ++ ascii "%%") = some pattern) {maxkeys : Int}
    (hmax : b.aliases.rows.length ≤ listLimit maxkeys) (allversion headers : Bool) :
    ∃ out, b.listAliases scan (prefixParams p maxkeys allversion headers) = .ok out ∧
      ∀ name, (∃ a ∈ aliasesIn out, a.alias = name) ↔
        ∃ a ∈ b.aliases.rows, a.alias = name ∧ scan.like pattern name = true := by
  have hlen : (scan.sort (b.aliases.rows.filter fun a => scan.like pattern a.alias)).length ≤
      (listLimit maxkeys).toNat := by
    have := length_filter_le (fun a : Alias => scan.like pattern a.alias) b.aliases.rows
    rw [(scan.perm _).length_eq]
    omega
  have hload : b.loadListed scan (prefixParams p maxkeys allversion headers) none =
      .ok (scan.sort (b.aliases.rows.filter fun a => scan.like pattern a.alias)) := by
    have htest : clauseTest scan.like (prefixParams p maxkeys allversion headers) none =
        some fun a => scan.like pattern a.alias := by
      simp [clauseTest, prefixParams, literal?, hp, After]
    rw [loadListed, htest]
    exact congrArg Except.ok (take_of_length_le hlen)
  obtain ⟨out, hout, hrows⟩ := listAliases_of_load rfl hload
  refine ⟨out, hout, fun name => ?_⟩
  rw [hrows, prefixParams, exists_mem_runTree]
  simp only [(scan.perm _).mem_iff, mem_filter]
  constructor
  · rintro ⟨a, ⟨ha, hl⟩, rfl⟩
    exact ⟨a, ha, rfl, hl⟩
  · rintro ⟨a, ha, rfl, hl⟩
    exact ⟨a, ⟨ha, hl⟩, rfl⟩

def single (name : Bytes) : Base := Base.init.saveAll [.aliases ⟨name, 1, 1, [], [], 0, false⟩]

theorem mem_single : a ∈ (single name).aliases.rows ↔ a = ⟨name, 1, 1, [], [], 0, false⟩ := by
  simp [single, aliases_saveAll, aliasesIn, Bean.alias?, replaceAll, Base.init, empty]

theorem ListsPrefix.prefix_of_like {pattern : Bytes} (h : b.ListsPrefix scan p)
    (hp : literalValue (p ++ ascii "%%") = some pattern) (ha : a ∈ b.aliases.rows)
    (hl : scan.like pattern a.alias = true) : p <+: a.alias := by
  have hmax : (b.aliases.rows.length : Int) ≤ listLimit (b.aliases.rows.length + 1) := by
    unfold listLimit
    split <;> omega
  obtain ⟨out, hout, hnames⟩ := listAliases_prefix scan hp hmax false false
  obtain ⟨out', hout', hstart⟩ := h _ false false hmax
  rw [hout] at hout'
  cases hout'
  exact ((hstart a.alias).mp ((hnames a.alias).mpr ⟨a, ha, rfl, hl⟩)).2

/-- 文書どおりの `LIKE` で壊れた文を断る問い合わせ -/
def strictScan : Scan where
  sort l := orderBy (fun a => nameKey a.alias) l
  perm l := perm_orderBy _ l
  sorted l := pairwise_orderBy _ l
  like := like
  broken _ := .error ⟨codeInternalError, "near syntax error"⟩

theorem quote_notMem_of_listsPrefix (h : ∀ b : Base, b.ListsPrefix strictScan p) : quote ∉ p := by
  intro hq
  have happend := literalValue_append (t := ascii "%%") (by decide) p
  cases hv : literalValue p with
  | none =>
    -- literal が壊れるので、問い合わせは error になる
    obtain ⟨out, hout, -⟩ := h Base.init 1 false false (by decide)
    rw [hv] at happend
    simp [listAliases, bind, Except.bind, prefixParams, loadListed, clauseTest, literal?, happend,
      strictScan] at hout
  | some q =>
    rw [hv] at happend
    have hl : like (q ++ ascii "%%") (q ++ []) = true := like_append_self (like_percents []) q
    rw [append_nil] at hl
    have hle := ((h (single q)).prefix_of_like happend (mem_single.mpr rfl) hl).length_le
    exact absurd ((length_literalValue hv).2 hq) (Nat.not_lt.mpr hle)

theorem likePlain_of_listsPrefix (h : ∀ b : Base, b.ListsPrefix strictScan p) {c : UInt8}
    (hc : c ∈ p) : LikePlain c := by
  by_contra hplain
  have hq := quote_notMem_of_listsPrefix h
  obtain ⟨u, v, rfl⟩ := append_of_mem hc
  -- `c` をそれに合うほかの byte に替えた名前
  have hv : like (v ++ ascii "%%") (v ++ []) = true := like_append_self (like_percents []) v
  obtain ⟨x, hne, hx⟩ := exists_like_other hplain hv
  have hl := like_append_self hx u
  rw [append_nil] at hl
  have hlit : literalValue (u ++ c :: v ++ ascii "%%") = some (u ++ c :: (v ++ ascii "%%")) := by
    rw [literalValue_append (by decide), literalValue_of_notMem hq, Option.map_some,
      append_assoc, cons_append]
  have hpre := (h (single (u ++ x :: v))).prefix_of_like hlit (mem_single.mpr rfl) hl
  have heq := hpre.eq_of_length (by simp)
  exact hne (cons.inj (append_cancel_left heq)).1.symm

/-- **prefix を与えた一覧。** prefix で始まる名前がちょうど返るのは、prefix の byte がどれも `LIKE` で自分とだけ合い、
quote でもないときに限る。 -/
theorem prefix_listing_iff (p : Bytes) :
    (∀ (b : Base) (scan : Scan), scan.like = like → b.ListsPrefix scan p) ↔
      ∀ c ∈ p, LikePlain c ∧ c ≠ quote := by
  constructor
  · intro h c hc
    have hstrict : ∀ b : Base, b.ListsPrefix strictScan p := fun b => h b strictScan rfl
    refine ⟨likePlain_of_listsPrefix hstrict hc, ?_⟩
    rintro rfl
    exact quote_notMem_of_listsPrefix hstrict hc
  · intro hp b scan hlike maxkeys allversion headers hmax
    have hq : quote ∉ p := fun hq => (hp quote hq).2 rfl
    have hlit : literalValue (p ++ ascii "%%") = some (p ++ ascii "%%") := by
      rw [literalValue_append (by decide), literalValue_of_notMem hq, Option.map_some]
    obtain ⟨out, hout, hnames⟩ := listAliases_prefix scan hlit hmax allversion headers
    refine ⟨out, hout, fun name => (hnames name).trans ?_⟩
    have hiff : like (p ++ ascii "%%") name = true ↔ p <+: name :=
      like_percents_iff fun c hc => (hp c hc).1
    rw [hlike, hiff]
    constructor
    · rintro ⟨a, ha, hn, hpre⟩
      exact ⟨⟨a, ha, hn⟩, hpre⟩
    · rintro ⟨⟨a, ha, hn⟩, hpre⟩
      exact ⟨a, ha, hn, hpre⟩

/-- prefix `a_` の一覧に `ab` という名前が入る -/
theorem prefix_listing_wildcard : ∃ out,
    (single (ascii "ab")).listAliases strictScan (prefixParams (ascii "a_") 10 false false) =
      .ok out ∧ (aliasesIn out).map Alias.alias = [ascii "ab"] ∧ ¬ ascii "a_" <+: ascii "ab" :=
  ⟨_, rfl, by decide, by decide⟩

/-! ## 一覧と検索 -/

/-- version の差はどの 2 つの行でも 31 bit に収まる -/
def NarrowVersions (b : Base) : Prop :=
  ∀ a ∈ b.aliases.rows, ∀ r ∈ b.aliases.rows, a.version - r.version < 2 ^ 31

theorem compareVersion_le_iff {a r : Alias} (h : a.version - r.version < 2 ^ 31)
    (h' : r.version - a.version < 2 ^ 31) : compareVersion a r ≤ 0 ↔ r.version ≤ a.version := by
  rw [compareVersion, Int.bmod_eq_of_le (by omega) (by omega)]
  omega

/-- 先頭が最も新しい、base の行の列 -/
def HeadLatest (b : Base) (l : List Alias) : Prop :=
  (∀ x ∈ l, x ∈ b.aliases.rows) ∧ ∀ h ∈ l.head?, ∀ x ∈ l, x.version ≤ h.version

theorem NarrowVersions.headLatest_insert (hb : b.NarrowVersions) {l : List Alias}
    (h : b.HeadLatest l) (ha : a ∈ b.aliases.rows) :
    b.HeadLatest (l.orderedInsert (fun x y => compareVersion x y ≤ 0) a) := by
  refine ⟨fun x hx => ?_, ?_⟩
  · rcases (mem_orderedInsert _).mp hx with rfl | hx
    · exact ha
    · exact h.1 x hx
  cases l with
  | nil => simp
  | cons x l =>
    have hx := h.1 x mem_cons_self
    have hmax := h.2 x rfl
    have hcmp := compareVersion_le_iff (hb a ha x hx) (hb x hx a ha)
    rw [orderedInsert]
    split
    · next hle =>
      have hle := hcmp.mp hle
      intro _ hh y hy
      cases hh
      rcases mem_cons.mp hy with rfl | hy
      · exact le_rfl
      · exact (hmax y hy).trans hle
    · next hgt =>
      have hlt := not_le.mp (mt hcmp.mpr hgt)
      intro _ hh y hy
      cases hh
      rcases mem_cons.mp hy with rfl | hy
      · exact le_rfl
      rcases (mem_orderedInsert _).mp hy with rfl | hy
      · exact hlt.le
      · exact hmax y (mem_cons_of_mem _ hy)

theorem NarrowVersions.head_versionList (hb : b.NarrowVersions) (name : Bytes) :
    (versionList b.aliases.rows name).head? = b.latestRow name := by
  have hlatest : b.HeadLatest (versionList b.aliases.rows name) := by
    refine foldlRecOn (motive := b.HeadLatest) _ _ ⟨nofun, nofun⟩ fun l hl a ha => ?_
    exact hb.headLatest_insert hl (mem_of_mem_filter ha)
  cases hl : versionList b.aliases.rows name with
  | nil =>
    cases hr : b.latestRow name with
    | none => rfl
    | some r =>
      have hmem := mem_versionList.mpr (latestRow_mem hr)
      rw [hl] at hmem
      cases hmem
  | cons x l =>
    have hx := mem_versionList.mp (hl ▸ mem_cons_self : x ∈ versionList b.aliases.rows name)
    refine (latestRow_eq_some hx.1 hx.2 fun y hy hn => ?_).symm
    exact hlatest.2 x (by rw [hl]; rfl) y (mem_versionList.mpr ⟨hy, hn⟩)

theorem getAlias_live (noprops : Bool) (h : b.latestRow name = some a) (hd : a.deleted = false) :
    ∃ out, b.getAlias (pathUrl name) { noprops, nodeleted := true } = .ok out ∧
      aliasesIn out = [a] := by
  have hfind : b.findAliases (pathUrl name) { noprops, nodeleted := true } = .ok [a] :=
    findAliases_path h hd
  have hprops : ∃ ps, b.getProperties (pathUrl name) { noprops, nodeleted := true } = .ok ps := by
    simp [getProperties, getProperty, pathUrl, Url.getPath, bind, Except.bind, h, hd]
  obtain ⟨ps, hprops⟩ := hprops
  have hbeans : ((drain [a]).filter fun x => !(true && x.deleted)).flatMap b.manageAlias =
      b.manageAlias a := by
    simp [drain, hd]
  have hnil : aliasesIn (ps.map .properties) = [] := by
    simp [aliasesIn, Bean.alias?]
  simp only [getAlias, hfind, hprops, bind, Except.bind, hbeans]
  cases noprops with
  | false =>
    refine ⟨_, rfl, ?_⟩
    rw [aliasesIn, filterMap_append, ← aliasesIn, ← aliasesIn, hnil, aliasesIn_manageAlias]
    rfl
  | true => exact ⟨_, rfl, aliasesIn_manageAlias b a⟩

/-- **一覧と検索。** version の差が 31 bit に収まる base では、削除されたものを除く一覧の名前は GET の成功する名前で、
2 つは同じ行を返す。 -/
theorem listed_iff_get (b : Base) (hb : b.NarrowVersions) (scan : Scan) (headers noprops : Bool) :
    ∃ out, b.listAliases scan { nodeleted := true, headers, type := .default none } = .ok out ∧
      ∀ name, ((∃ a ∈ aliasesIn out, a.alias = name) ↔
          ∃ beans, b.getAlias (pathUrl name) { noprops, nodeleted := true } = .ok beans) ∧
        ∀ beans, b.getAlias (pathUrl name) { noprops, nodeleted := true } = .ok beans →
          ∀ a ∈ aliasesIn out, a.alias = name → aliasesIn beans = [a] := by
  have hload : b.loadListed scan { nodeleted := true, headers, type := .default none } none =
      .ok b.aliases.rows := by
    simp [loadListed, clauseTest, literal?]
  obtain ⟨out, hout, hrows⟩ := listAliases_of_load rfl hload
  have hmem : ∀ a, a ∈ aliasesIn out ↔ b.latestRow a.alias = some a ∧ a.deleted = false := by
    intro a
    rw [hrows, mem_runTree, hb.head_versionList]
  refine ⟨out, hout, fun name => ⟨⟨?_, ?_⟩, ?_⟩⟩
  · rintro ⟨a, ha, rfl⟩
    obtain ⟨hl, hd⟩ := (hmem a).mp ha
    obtain ⟨beans, hget, -⟩ := getAlias_live noprops hl hd
    exact ⟨beans, hget⟩
  · rintro ⟨beans, hget⟩
    obtain ⟨r, hr, hd⟩ := live_of_getAlias hget
    have hn := (latestRow_mem hr).2
    exact ⟨r, (hmem r).mpr ⟨hn ▸ hr, hd⟩, hn⟩
  · rintro beans hget a ha rfl
    obtain ⟨hl, hd⟩ := (hmem a).mp ha
    obtain ⟨beans', hget', hin⟩ := getAlias_live noprops hl hd
    rw [hget] at hget'
    cases hget'
    exact hin

/-- 2 つの version が生きている `ab` と、最も新しい version が削除された `cd` -/
def mixed : Base := Base.init.saveAll [.aliases ⟨ascii "ab", 1, 1, [], [], 0, false⟩,
  .aliases ⟨ascii "ab", 2, 2, [], [], 0, false⟩, .aliases ⟨ascii "cd", 1, 1, [], [], 0, false⟩,
  .aliases ⟨ascii "cd", 2, 2, [], [], 0, true⟩]

/-- `ab` だけが一覧に現れる -/
theorem listed_iff_get_mixed : ∃ out,
    mixed.listAliases strictScan { nodeleted := true, type := .default none } = .ok out ∧
      (∃ a ∈ aliasesIn out, a.alias = ascii "ab") ∧ ¬∃ a ∈ aliasesIn out, a.alias = ascii "cd" := by
  have hb : mixed.NarrowVersions := by
    unfold NarrowVersions
    decide +kernel
  obtain ⟨out, hout, hiff⟩ := listed_iff_get _ hb strictScan false false
  obtain ⟨beans, hget⟩ : ∃ beans, mixed.getAlias (pathUrl (ascii "ab")) { nodeleted := true } =
      .ok beans := ⟨_, rfl⟩
  obtain ⟨e, herr⟩ : ∃ e, mixed.getAlias (pathUrl (ascii "cd")) { nodeleted := true } =
      .error e := ⟨_, rfl⟩
  refine ⟨out, hout, (hiff _).1.mpr ⟨beans, hget⟩, fun h => ?_⟩
  obtain ⟨beans', hget'⟩ := (hiff _).1.mp h
  cases herr.symm.trans hget'

end Base

end Redcurrant.Meta2
