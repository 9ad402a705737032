import Mathlib.Data.List.Lex
import Redcurrant.Meta2.Snapshot

/-!
# alias の一覧

`m2db_list_aliases` は条件を SQL に貼り付けて行を読み、名前ごとの version の列の木を名前の順にたどる。
-/

namespace Redcurrant.Meta2

open Infra Sqliterepo List

/-! ## 名前の順と literal -/

/-- `strcmp` と `BINARY` の照合順序は byte を符号なしで比べる -/
def nameKey (name : Bytes) : List Nat := name.map UInt8.toNat

def NameLt (a b : Bytes) : Prop := nameKey a < nameKey b

instance (a b : Bytes) : Decidable (NameLt a b) := inferInstanceAs (Decidable (nameKey a < nameKey b))

def quote : UInt8 := 39

/-- quote の間に貼り付けた文字列の値。2 つ続く quote は 1 つの quote で、1 つだけの quote は literal を終わらせる
（`none`）。 -/
def literalValue : Bytes → Option Bytes
  | [] => some []
  | c :: s =>
    if c = quote then
      match s with
      | [] => none
      | d :: s' => if d = quote then (literalValue s').map (quote :: ·) else none
    else (literalValue s).map (c :: ·)

/-- 無いこともある条件の値 -/
def literal? : Option Bytes → Option (Option Bytes)
  | none => some none
  | some s => (literalValue s).map some

/-! ## 引数 -/

/-- `lp->type` と、その種類の引数 -/
inductive ListType
  | s3 (namePrefix marker : Option Bytes) (maxkeys : Int)
  | redc
  | default (namePattern : Option Bytes)
  deriving DecidableEq

structure ListParams where
  nodeleted : Bool := false
  allversion : Bool := false
  headers : Bool := false
  snapshotName : Option Bytes := none
  type : ListType
  deriving DecidableEq

def listLimit (maxkeys : Int) : Int := if 0 < maxkeys then maxkeys else 1000

def listParamsToSqlClause (lp : ListParams) : Bytes :=
  let withSnapshot (clause : Bytes) : Bytes :=
    let clause := if lp.snapshotName.isSome then
        clause ++ (if clause ≠ [] then ascii " AND " else []) ++ ascii " container_version = ? "
      else clause
    if clause = [] then ascii "1" else clause
  match lp.type with
  | .s3 namePrefix marker maxkeys =>
    let clause := marker.elim [] fun m => ascii "alias > '" ++ m ++ ascii "' "
    let clause := if clause ≠ [] ∧ namePrefix.isSome then clause ++ ascii "AND " else clause
    let clause := clause ++ namePrefix.elim [] fun p => ascii "alias LIKE '" ++ p ++ ascii "%%' "
    let clause := if clause = [] then ascii "1 " else clause
    clause ++ ascii "ORDER BY alias ASC " ++ ascii "LIMIT " ++ decInt (listLimit maxkeys)
  | .default namePattern =>
    withSnapshot (namePattern.elim [] fun p => ascii "alias LIKE '" ++ p ++ ascii "'")
  | .redc => withSnapshot []

/-- 問い合わせの結果のうち、SQLite の側で決まるもの -/
structure Scan where
  /-- `ORDER BY alias ASC`。同じ名前の行の順は任意。 -/
  sort : List Alias → List Alias
  perm : ∀ l, (sort l).Perm l
  sorted : ∀ l, (sort l).Pairwise fun a b => nameKey a.alias ≤ nameKey b.alias
  /-- `LIKE` -/
  like : Bytes → Bytes → Bool
  /-- literal が途中で終わった条件の文の結果 -/
  broken : Bytes → Except GError (List Alias)

/-! ## 一覧 -/

def After (bound : Option Bytes) (name : Bytes) : Prop := ∀ n ∈ bound, NameLt n name

instance (bound : Option Bytes) (name : Bytes) : Decidable (After bound name) :=
  inferInstanceAs (Decidable (∀ n ∈ bound, NameLt n name))

/-- 条件に合う行。literal の壊れた条件には意味が無い。 -/
def clauseTest (like : Bytes → Bytes → Bool) (lp : ListParams) (version : Option Int) :
    Option (Alias → Bool) :=
  match lp.type with
  | .s3 namePrefix marker _ => do
    let bound ← literal? marker
    let pattern ← literal? (namePrefix.map (· ++ ascii "%%"))
    some fun a => decide (After bound a.alias) && pattern.all (like · a.alias)
  | .default namePattern => do
    let pattern ← literal? namePattern
    some fun a => pattern.all (like · a.alias) && version.all (· = a.containerVersion)
  | .redc => some fun a => version.all (· = a.containerVersion)

/-- `_compare_version`。64 bit の差が `gint` に切り詰められる。 -/
def compareVersion (a₁ a₂ : Alias) : Int := Int.bmod (a₂.version - a₁.version) (2 ^ 32)

/-- 同じ名前の行を `g_slist_insert_sorted` で並べた列 -/
def versionList (rows : List Alias) (name : Bytes) : List Alias :=
  (rows.filter (·.alias = name)).foldl
    (fun found a => found.orderedInsert (fun x y => compareVersion x y ≤ 0) a) []

def listedRows (nodeleted allversion : Bool) : List Alias → List Alias
  | [] => []
  | a :: l =>
    if nodeleted && a.deleted then []
    else if allversion then (a :: l).reverse else [a]

/-- 名前の木を順にたどる -/
def runTree (nodeleted allversion : Bool) (rows : List Alias) : List Alias :=
  (orderBy nameKey (rows.map Alias.alias).dedup).flatMap fun name =>
    listedRows nodeleted allversion (versionList rows name)

namespace Base

variable (b : Base)

/-- `ALIASES_load`。S3 の条件に `?` が無く、snapshot を与えると引数の数が合わない。 -/
def loadListed (scan : Scan) (lp : ListParams) (version : Option Int) :
    Except GError (List Alias) :=
  match clauseTest scan.like lp version with
  | none => scan.broken (listParamsToSqlClause lp)
  | some test =>
    let rows := b.aliases.rows.filter test
    match lp.type with
    | .s3 _ _ maxkeys =>
      if version.isSome then .error ⟨500, "Bad parameters : 0 expected, 1 received"⟩
      else .ok ((scan.sort rows).take (listLimit maxkeys).toNat)
    | _ => .ok rows

/-- `m2db_list_aliases` -/
def listAliases (scan : Scan) (lp : ListParams) : Except GError (List Bean) := do
  let version ← match lp.snapshotName with
    | none => .ok none
    | some name => (b.getSnapshotByName name).map fun s => some s.version
  let rows ← b.loadListed scan lp version
  .ok ((runTree lp.nodeleted lp.allversion rows).flatMap fun a =>
    (if lp.headers then (b.headersOf a.contentId).map .contentsHeaders else []) ++ [.aliases a])

def pageParams (k : Nat) (headers : Bool) (marker : Option Bytes) : ListParams :=
  { nodeleted := true, headers, type := .s3 none marker k }

end Base

/-! ## 名前の順についての補題 -/

theorem nameKey_injective : Function.Injective nameKey := by
  intro a b h
  exact map_injective_iff.mpr (fun x y hxy => UInt8.toNat_inj.mp hxy) h

theorem nameLt_irrefl (a : Bytes) : ¬ NameLt a a := lt_irrefl (nameKey a)

theorem NameLt.trans_le {a b c : Bytes} (h : NameLt a b) (h' : nameKey b ≤ nameKey c) :
    NameLt a c := lt_of_lt_of_le h h'

theorem nameLt_of_le_of_ne {a b : Bytes} (h : nameKey a ≤ nameKey b) (hne : a ≠ b) : NameLt a b :=
  lt_of_le_of_ne h fun he => hne (nameKey_injective he)

theorem eq_of_nameLt {l1 l2 : List Alias} (h1 : l1.Pairwise fun a b => NameLt a.alias b.alias)
    (h2 : l2.Pairwise fun a b => NameLt a.alias b.alias) (h : ∀ a, a ∈ l1 ↔ a ∈ l2) : l1 = l2 := by
  have hirr : Std.Irrefl fun a b : Alias => NameLt a.alias b.alias :=
    ⟨fun a => nameLt_irrefl a.alias⟩
  have hanti : Std.Antisymm fun a b : Alias => NameLt a.alias b.alias :=
    ⟨fun a b hab hba => absurd hba (lt_asymm hab)⟩
  exact h1.eq_of_mem_iff h2 h

theorem pairwise_nameLt {l : List Alias}
    (hs : l.Pairwise fun a b => nameKey a.alias ≤ nameKey b.alias) (hn : l.Nodup)
    (hu : ∀ a ∈ l, ∀ r ∈ l, a.alias = r.alias → a = r) :
    l.Pairwise fun a b => NameLt a.alias b.alias := by
  refine (hs.and hn).imp_of_mem ?_
  rintro a r ha hr ⟨hle, hne⟩
  exact nameLt_of_le_of_ne hle fun he => hne (hu a ha r hr he)

/-! ## 1 page の行 -/

section

variable {rows : List Alias} {name : Bytes} {a : Alias}

theorem perm_versionList (rows : List Alias) (name : Bytes) :
    (versionList rows name).Perm (rows.filter (·.alias = name)) := by
  have hfold : ∀ l found : List Alias, (l.foldl
      (fun found a => found.orderedInsert (fun x y => compareVersion x y ≤ 0) a) found).Perm
        (found ++ l) := by
    intro l
    induction l with
    | nil => simp
    | cons a l ih =>
      intro found
      refine (ih _).trans ?_
      refine ((perm_orderedInsert _ a found).append_right l).trans ?_
      exact perm_middle.symm
  exact hfold _ []

theorem mem_versionList : a ∈ versionList rows name ↔ a ∈ rows ∧ a.alias = name := by
  rw [(perm_versionList rows name).mem_iff, mem_filter, decide_eq_true_eq]

theorem mem_runTree : a ∈ runTree true false rows ↔
    (versionList rows a.alias).head? = some a ∧ a.deleted = false := by
  have hlisted : ∀ l : List Alias, a ∈ listedRows true false l ↔
      l.head? = some a ∧ a.deleted = false := by
    intro l
    cases l with
    | nil => simp [listedRows]
    | cons x l =>
      by_cases hx : x.deleted = true
      · simp only [listedRows, hx, Bool.and_self, if_true, not_mem_nil, head?_cons,
          Option.some.injEq, false_iff, not_and]
        rintro rfl
        simp [hx]
      simp only [listedRows, hx, Bool.and_false, Bool.false_eq_true, if_false,
        mem_singleton, head?_cons, Option.some.injEq]
      constructor
      · rintro rfl
        exact ⟨rfl, by simpa using hx⟩
      · rintro ⟨rfl, -⟩
        rfl
  simp only [runTree, mem_flatMap, mem_orderBy, mem_dedup, mem_map, hlisted]
  constructor
  · rintro ⟨n, -, hh, hd⟩
    have hm := mem_versionList.mp (mem_of_mem_head? hh)
    exact ⟨hm.2 ▸ hh, hd⟩
  · rintro ⟨hh, hd⟩
    have hm := mem_versionList.mp (mem_of_mem_head? hh)
    exact ⟨a.alias, ⟨a, hm.1, rfl⟩, hh, hd⟩

theorem pairwise_runTree (rows : List Alias) :
    (runTree true false rows).Pairwise fun a b => NameLt a.alias b.alias := by
  have hnames : (orderBy nameKey (rows.map Alias.alias).dedup).Pairwise NameLt := by
    have hnodup : (orderBy nameKey (rows.map Alias.alias).dedup).Nodup :=
      (perm_orderBy _ _).nodup_iff.mpr (nodup_dedup _)
    refine ((pairwise_orderBy nameKey _).and hnodup).imp ?_
    rintro n n' ⟨hle, hne⟩
    exact nameLt_of_le_of_ne hle hne
  have hone : ∀ n, ∀ a ∈ listedRows true false (versionList rows n), a.alias = n := by
    intro n a ha
    cases hl : versionList rows n with
    | nil => simp [hl, listedRows] at ha
    | cons x l =>
      have hx : x ∈ versionList rows n := by simp [hl]
      simp only [hl, listedRows] at ha
      split at ha
      · cases ha
      · have he : a = x := by simpa using ha
        exact he ▸ (mem_versionList.mp hx).2
  rw [runTree, pairwise_flatMap]
  refine ⟨fun n _ => ?_, hnames.imp ?_⟩
  · cases versionList rows n with
    | nil => exact .nil
    | cons x l =>
      simp only [listedRows]
      split
      · exact .nil
      · exact pairwise_singleton _ _
  · intro n n' hlt a ha r hr
    rw [hone n a ha, hone n' r hr]
    exact hlt

theorem runTree_eq_filter
    (hs : rows.Pairwise fun a b => nameKey a.alias ≤ nameKey b.alias) (hn : rows.Nodup)
    (hu : ∀ a ∈ rows, a.deleted = false → ∀ r ∈ rows, r.alias = a.alias → r = a) :
    runTree true false rows = rows.filter (!·.deleted) := by
  refine eq_of_nameLt (pairwise_runTree rows) ?_ fun a => ?_
  · refine pairwise_nameLt (hs.filter _) (hn.filter _) fun a ha r hr he => ?_
    obtain ⟨ham, -⟩ := mem_filter.mp ha
    obtain ⟨hrm, hrd⟩ := mem_filter.mp hr
    exact hu r hrm (by simpa using hrd) a ham he
  rw [mem_runTree, mem_filter, Bool.not_eq_true']
  constructor
  · rintro ⟨hh, hd⟩
    exact ⟨(mem_versionList.mp (mem_of_mem_head? hh)).1, hd⟩
  · rintro ⟨ha, hd⟩
    refine ⟨?_, hd⟩
    cases hl : (versionList rows a.alias).head? with
    | none =>
      rw [head?_eq_none_iff] at hl
      have := mem_versionList.mpr ⟨ha, rfl⟩
      rw [hl] at this
      cases this
    | some x =>
      obtain ⟨hx, hxn⟩ := mem_versionList.mp (mem_of_mem_head? hl)
      rw [hu a ha hd x hx hxn]

end

namespace Base

section

variable {b : Base} {scan : Scan} {k : Nat} {headers : Bool} {marker bound : Option Bytes}
  {a r : Alias} {out : List Bean} {rest : List Alias}

/-- 下限の後の行を問い合わせの順に並べたもの -/
def scanned (b : Base) (scan : Scan) (bound : Option Bytes) : List Alias :=
  scan.sort (b.aliases.rows.filter fun a => After bound a.alias)

theorem mem_scanned : a ∈ b.scanned scan bound ↔ a ∈ b.aliases.rows ∧ After bound a.alias := by
  rw [scanned, (scan.perm _).mem_iff, mem_filter, decide_eq_true_eq]

theorem sorted_scanned (b : Base) (scan : Scan) (bound : Option Bytes) :
    (b.scanned scan bound).Pairwise fun a r => nameKey a.alias ≤ nameKey r.alias :=
  scan.sorted _

theorem nodup_scanned (b : Base) (scan : Scan) (bound : Option Bytes) :
    (b.scanned scan bound).Nodup :=
  (scan.perm _).nodup_iff.mpr (b.nodup_aliases.filter _)

theorem clauseTest_page (like : Bytes → Bytes → Bool) (k : Nat) (headers : Bool)
    (marker : Option Bytes) : clauseTest like (pageParams k headers marker) none =
      (literal? marker).map fun bound a => decide (After bound a.alias) := by
  cases hb : literal? marker with
  | none => simp [clauseTest, pageParams, hb]
  | some bound =>
    have hnone : literal? none = some none := rfl
    simp [clauseTest, pageParams, hb, hnone]

theorem aliasesIn_listed (f : Alias → List Header) (l : List Alias) :
    aliasesIn (l.flatMap fun a => (f a).map .contentsHeaders ++ [.aliases a]) = l := by
  induction l with
  | nil => rfl
  | cons a l ih =>
    have hnil : aliasesIn ((f a).map .contentsHeaders) = [] := by
      rw [aliasesIn, filterMap_map, filterMap_eq_nil_iff]
      exact fun _ _ => rfl
    rw [flatMap_cons, aliasesIn, filterMap_append, ← aliasesIn, ← aliasesIn, ih,
      aliasesIn, filterMap_append, ← aliasesIn, hnil]
    rfl

theorem listAliases_of_load {lp : ListParams} {rows : List Alias} (hs : lp.snapshotName = none)
    (hload : b.loadListed scan lp none = .ok rows) : ∃ out, b.listAliases scan lp = .ok out ∧
      aliasesIn out = runTree lp.nodeleted lp.allversion rows := by
  refine ⟨_, ?_, aliasesIn_listed (fun a => if lp.headers then b.headersOf a.contentId else []) _⟩
  simp only [listAliases, bind, Except.bind, hs, hload]
  cases lp.headers <;> rfl

theorem listAliases_page (b : Base) (scan : Scan) (headers : Bool) (hk : 1 ≤ k) (hb : literal? marker = some bound) :
    ∃ out, b.listAliases scan (pageParams k headers marker) = .ok out ∧
      aliasesIn out = runTree true false ((b.scanned scan bound).take k) := by
  have hlimit : (listLimit k).toNat = k := by
    simp only [listLimit]
    split <;> omega
  have hload : b.loadListed scan (pageParams k headers marker) none =
      .ok ((b.scanned scan bound).take k) := by
    simp only [loadListed, clauseTest_page, hb, Option.map_some]
    simp [pageParams, hlimit, scanned]
  exact listAliases_of_load rfl hload

theorem listAliases_broken (b : Base) (k : Nat) (headers : Bool) {e : GError} (hb : literal? marker = none)
    (he : ∀ text, scan.broken text = .error e) :
    b.listAliases scan (pageParams k headers marker) = .error e := by
  have hload : b.loadListed scan (pageParams k headers marker) none = .error e := by
    simp [loadListed, clauseTest_page, hb, he]
  simp only [listAliases, bind, Except.bind]
  rw [show (pageParams k headers marker).snapshotName = none from rfl]
  simp only [hload]

end

end Base

end Redcurrant.Meta2
