import Redcurrant.Infra.Ordered
import Redcurrant.Meta2.Base

/-!
# alias の検索

`meta2_utils.c` の検索。URL の snapshot は version に優先し、数として読めない version は snapshot の名前とみなされる。
-/

namespace Redcurrant.Meta2

open Infra Sqliterepo List

/-! ## error -/

def codeBadRequest : Int := 400

def codeNotAllowed : Int := 403

def codeContentNotfound : Int := 420

def codeContentExists : Int := 421

def codeSnapshotNotfound : Int := 465

def codeInternalError : Int := 500

/-! ## URL -/

/-- `struct hc_url_s` のうち、meta2 の base の操作が読む部分 -/
structure Url where
  (path version snapshot : Option Bytes)
  deriving DecidableEq

/-- path だけを持つ URL -/
def pathUrl (path : Bytes) : Url := ⟨some path, none, none⟩

/-- path があるかの検査 -/
def Url.getPath (u : Url) : Except GError Bytes :=
  match u.path with
  | some p => .ok p
  | none => .error ⟨400, "Missing path"⟩

/-- `m2db_get_alias` が読む flag -/
structure GetFlags where
  noprops : Bool := false
  nodeleted : Bool := false
  allversion : Bool := false
  deriving DecidableEq

namespace Base

variable (b : Base)

/-! ## snapshot -/

/-- `m2db_get_snapshots`。負の version は条件にならない。 -/
def getSnapshots (name : Option Bytes) (version : Int) : List Snapshot :=
  b.snapshots.rows.filter fun s =>
    name.all (· = s.name) && (decide (version < 0) || s.version = version)

/-- `m2db_get_snapshot_by_name`。同じ名前なら最後に読んだもの。 -/
def getSnapshotByName (name : Bytes) : Except GError Snapshot :=
  match (b.getSnapshots (some name) (-1)).getLast? with
  | some s => .ok s
  | none => .error ⟨codeSnapshotNotfound, "Snapshot '" ++ text name ++ "' not found"⟩

def isInASnapshot (a : Alias) : Bool := !(b.getSnapshots none a.containerVersion).isEmpty

/-! ## alias の行 -/

def aliasRows (path : Bytes) : List Alias := b.aliases.rows.filter (·.alias = path)

/-- `ORDER BY version DESC LIMIT 1` -/
def latestRow (path : Bytes) : Option Alias := maxRow Alias.version (b.aliasRows path)

inductive Clause
  /-- `alias = ? AND container_version = ?` -/
  | snapshot (containerVersion : Int)
  /-- `alias = ? AND version = ? LIMIT 1` -/
  | version (version : Int)
  /-- `alias = ? ORDER BY version DESC LIMIT 1` -/
  | latest
  deriving DecidableEq

def versionClause (vers : Bytes) : Except GError Clause :=
  -- 数字が無いか負なら、snapshot の名前として読み直す
  if strtollEnd vers = none ∨ strtoll vers < 0 then
    match b.getSnapshotByName vers with
    | .ok s => .ok (.snapshot s.version)
    | .error _ => .error ⟨codeBadRequest,
        "'" ++ text vers ++ "' is neither a valid version nor a snapshot name"⟩
  else if strtollErange vers then
    .error ⟨codeBadRequest, "Invalid version: '" ++ text vers ++ "'"⟩
  else .ok (.version (strtoll vers))

/-- `_build_clause_and_params` -/
def buildClause (url : Url) : Except GError Clause :=
  match url.snapshot with
  | some name => (b.getSnapshotByName name).map fun s => .snapshot s.version
  | none =>
    match url.version with
    | some vers => b.versionClause vers
    | none => .ok .latest

def selectRows (path : Bytes) : Clause → List Alias
  | .snapshot c => (b.aliasRows path).filter (·.containerVersion = c)
  | .version v => ((b.aliasRows path).filter (·.version = v)).take 1
  | .latest => (b.latestRow path).toList

/-- `m2db_get_alias` の前半。合う行が無ければ error。 -/
def findAliases (url : Url) (flags : GetFlags) : Except GError (List Alias) := do
  let path ← url.getPath
  let rows ←
    if flags.allversion then .ok (b.aliasRows path)
    else (b.buildClause url).map (b.selectRows path)
  match rows with
  | [] => .error ⟨codeContentNotfound, "Alias not found"⟩
  | [a] =>
    if a.deleted && flags.nodeleted then .error ⟨codeContentNotfound, "Alias deleted"⟩
    else .ok [a]
  | rows => .ok rows

/-- `m2db_get_versioned_alias`。文字列の version は SQLite が数として読む（`numericText`）。 -/
def getVersionedAlias (numericText : Bytes → Option Int) (url : Url) :
    Except GError (Option Alias) := do
  let path ← url.getPath
  match url.version with
  | none => .error ⟨400, "Missing version"⟩
  | some vers => .ok ((b.aliasRows path).find? (numericText vers = some ·.version))

/-- `m2db_latest_alias`。行が無くても成功する。 -/
def latestAlias (url : Url) : Except GError (Option Alias) := url.getPath.map b.latestRow

/-! ## 行からたどれる bean -/

/-- FK `image`: alias の content id を持つ header -/
def headersOf (id : Bytes) : List Header := b.headers.rows.filter (·.id = id)

/-- FK `content`: header の content の行 -/
def contentsOf (id : Bytes) : List Content := b.contents.rows.filter (·.contentId = id)

/-- FK `chunk`: content の chunk -/
def chunksOf (id : Bytes) : List Chunk := b.chunks.rows.filter (·.id = id)

/-- FK `aliases`: その content id を指す alias -/
def aliasesOf (id : Bytes) : List Alias := b.aliases.rows.filter (·.contentId = id)

/-- FK `contents`: その chunk を指す content の行 -/
def contentsAt (id : Bytes) : List Content := b.contents.rows.filter (·.chunkId = id)

/-- 先頭を `g_ptr_array_remove_index_fast` で取り除く順。末尾が先頭に移るので、2 番目からは逆順になる。 -/
def drain {α : Type} : List α → List α
  | [] => []
  | a :: l => a :: l.reverse

@[simp] theorem mem_drain {α : Type} {l : List α} {a : α} : a ∈ drain l ↔ a ∈ l := by
  cases l <;> simp [drain]

def manageContent (c : Content) : List Bean := (b.chunksOf c.chunkId).map .chunks ++ [.contents c]

def manageHeader (h : Header) : List Bean :=
  (drain (b.contentsOf h.id)).flatMap b.manageContent ++ [.contentsHeaders h]

def manageAlias (a : Alias) : List Bean :=
  (drain (b.headersOf a.contentId)).flatMap b.manageHeader ++ [.aliases a]

/-- 行の列からたどれる bean -/
def manageAll (rows : List Alias) : List Bean := (drain rows).flatMap b.manageAlias

def getAliasSize (a : Alias) : Int := ((b.headersOf a.contentId).getLast?.map Header.size).getD 0

/-! ## property -/

/-- `_filter_properties`。key ごとに、最も新しい version の property を残す。 -/
def filterProperties (rows : List Property) : Std.ExtTreeMap Bytes Property compare :=
  rows.foldl (fun done p =>
    match done[p.key]? with
    | none => done.insert p.key p
    | some found => if found.aliasVersion < p.aliasVersion then done.insert p.key p else done) ∅

/-- `m2db_get_property` -/
def getProperty (url : Url) (propName : Bytes) (flags : GetFlags) :
    Except GError (List Property) := do
  let path ← url.getPath
  match b.latestRow path with
  | none => .error ⟨codeContentNotfound, "Alias not found"⟩
  | some latest =>
    if latest.deleted then .ok [] else
    let version := (url.version.map strtoll).getD (-1)
    let rows := b.properties.rows.filter fun p =>
      p.alias = path && (decide (version ≤ 0) || decide (p.aliasVersion ≤ version)) &&
        (propName.isEmpty || p.key = propName)
    if flags.allversion then .ok rows
    else .ok (((filterProperties rows).toList.map (·.2)).filter
      fun p => !(flags.nodeleted && p.deleted))

/-- `m2db_get_properties` -/
def getProperties (url : Url) (flags : GetFlags) : Except GError (List Property) :=
  b.getProperty url [] flags

/-- `m2db_get_alias` -/
def getAlias (url : Url) (flags : GetFlags) : Except GError (List Bean) := do
  let rows ← b.findAliases url flags
  let beans := (drain rows).filter (fun a => !(flags.nodeleted && a.deleted))
  let beans := beans.flatMap b.manageAlias
  if flags.noprops then .ok beans
  else match b.getProperties url flags with
    | .ok ps => .ok (beans ++ ps.map .properties)
    | .error e => .error (prefixError "Properties error: " e)

/-! ## 検索の結果 -/

section

variable {b} {path : Bytes} {a r : Alias} {url : Url}

@[simp] theorem mem_aliasRows : a ∈ b.aliasRows path ↔ a ∈ b.aliases.rows ∧ a.alias = path := by
  simp [aliasRows]

theorem alias_unique (ha : a ∈ b.aliases.rows) (hr : r ∈ b.aliases.rows)
    (hn : a.alias = r.alias) (hv : a.version = r.version) : a = r :=
  b.aliases.eq_of_clash ha hr (clash_alias.mpr ⟨hn, hv⟩)

theorem latestRow_mem (h : b.latestRow path = some r) : r ∈ b.aliases.rows ∧ r.alias = path :=
  mem_aliasRows.mp (maxRow_mem h)

section

variable (h : b.latestRow path = some r) (ha : a ∈ b.aliases.rows) (hn : a.alias = path)
include h ha hn

theorem latestRow_le : a.version ≤ r.version := le_of_maxRow h (mem_aliasRows.mpr ⟨ha, hn⟩)

theorem no_row_after_latestRow : a.version ≠ r.version + 1 := by
  have := latestRow_le h ha hn
  omega

end

theorem no_row_of_latestRow_none (h : b.latestRow path = none) (ha : a ∈ b.aliases.rows) :
    a.alias ≠ path := by
  intro hn
  have hm : a ∈ b.aliasRows path := mem_aliasRows.mpr ⟨ha, hn⟩
  rw [maxRow_eq_none h] at hm
  cases hm

theorem latestRow_eq_some (hr : r ∈ b.aliases.rows) (hn : r.alias = path)
    (hmax : ∀ a ∈ b.aliases.rows, a.alias = path → a.version ≤ r.version) :
    b.latestRow path = some r := by
  cases hl : b.latestRow path with
  | none => exact absurd hn (no_row_of_latestRow_none hl hr)
  | some z =>
    obtain ⟨hzm, hzn⟩ := latestRow_mem hl
    have hv : z.version = r.version := le_antisymm (hmax z hzm hzn) (latestRow_le hl hr hn)
    rw [alias_unique hzm hr (hzn.trans hn.symm) hv]

theorem mem_selectRows {c : Clause} (h : a ∈ b.selectRows path c) :
    a ∈ b.aliases.rows ∧ a.alias = path := by
  cases c with
  | snapshot c => exact mem_aliasRows.mp (mem_of_mem_filter h)
  | version v => exact mem_aliasRows.mp (mem_of_mem_filter (mem_of_mem_take h))
  | latest => exact latestRow_mem (Option.mem_toList.mp h)

section

variable {flags : GetFlags} {rows : List Alias} (hf : flags.allversion = false)
  (h : b.findAliases url flags = .ok rows)
include hf h

theorem findAliases_eq_ok :
    ∃ path c, url.path = some path ∧ b.buildClause url = .ok c ∧ rows = b.selectRows path c ∧
      rows ≠ [] := by
  obtain ⟨path, vers, snap⟩ := url
  cases path with
  | none => simp [findAliases, Url.getPath, bind, Except.bind] at h
  | some path =>
    simp only [findAliases, Url.getPath, bind, Except.bind, hf, Bool.false_eq_true, if_false] at h
    cases hc : b.buildClause ⟨some path, vers, snap⟩ with
    | error e => simp [hc, Except.map] at h
    | ok c =>
      simp only [hc, Except.map] at h
      refine ⟨path, c, rfl, rfl, ?_⟩
      split at h
      · cases h
      · next a ha =>
        split at h
        · cases h
        · cases h
          exact ⟨ha.symm, by simp⟩
      · next hne _ =>
        cases h
        exact ⟨rfl, fun he => hne he⟩

theorem mem_findAliases (ha : a ∈ rows) : a ∈ b.aliases.rows ∧ url.path = some a.alias := by
  obtain ⟨path, c, hp, -, rfl, -⟩ := findAliases_eq_ok hf h
  obtain ⟨hm, hn⟩ := mem_selectRows ha
  exact ⟨hm, hn ▸ hp⟩

end

theorem findAliases_path (hr : b.latestRow path = some r) (hl : r.deleted = false) :
    b.findAliases (pathUrl path) { nodeleted := true } = .ok [r] := by
  simp [findAliases, pathUrl, Url.getPath, bind, Except.bind, Except.map, buildClause,
    selectRows, hr, hl]

theorem getAlias_path_dead {noprops : Bool}
    (h : ∀ r, b.latestRow path = some r → r.deleted = true) :
    ∃ message, b.getAlias (pathUrl path) { noprops, nodeleted := true } =
      .error ⟨codeContentNotfound, message⟩ := by
  cases hr : b.latestRow path with
  | none =>
    simp [getAlias, findAliases, pathUrl, Url.getPath, bind, Except.bind, Except.map, buildClause,
      selectRows, hr]
  | some r =>
    simp [getAlias, findAliases, pathUrl, Url.getPath, bind, Except.bind, Except.map, buildClause,
      selectRows, hr, h r hr]

theorem latestRow_cases (b : Base) (path : Bytes) :
    (∃ r, b.latestRow path = some r ∧ r.deleted = false) ∨
      ∀ r, b.latestRow path = some r → r.deleted = true := by
  by_cases h : ∃ r, b.latestRow path = some r ∧ r.deleted = false
  · exact .inl h
  refine .inr fun r hr => ?_
  by_contra hd
  exact h ⟨r, hr, by simpa using hd⟩

theorem live_of_getAlias {noprops : Bool} {out : List Bean}
    (h : b.getAlias (pathUrl path) { noprops, nodeleted := true } = .ok out) :
    ∃ r, b.latestRow path = some r ∧ r.deleted = false := by
  refine (b.latestRow_cases path).resolve_right fun hall => ?_
  obtain ⟨message, he⟩ := getAlias_path_dead hall
  rw [he] at h
  cases h

theorem aliasesIn_manageAlias (b : Base) (a : Alias) : aliasesIn (b.manageAlias a) = [a] := by
  have hnil : aliasesIn ((drain (b.headersOf a.contentId)).flatMap b.manageHeader) = [] := by
    refine filterMap_eq_nil_iff.mpr fun x hx => ?_
    obtain ⟨h, -, hx⟩ := mem_flatMap.mp hx
    simp only [manageHeader, manageContent, mem_append, mem_flatMap, mem_map, mem_singleton] at hx
    rcases hx with ⟨y, -, ⟨k, -, rfl⟩ | rfl⟩ | rfl <;> rfl
  rw [manageAlias, aliasesIn, filterMap_append, ← aliasesIn, hnil]
  rfl

theorem getSnapshotByName_mem {name : Bytes} {s : Snapshot}
    (h : b.getSnapshotByName name = .ok s) : s ∈ b.snapshots.rows := by
  simp only [getSnapshotByName] at h
  split at h
  · next hlast =>
    cases h
    exact mem_of_mem_filter (mem_of_getLast? hlast)
  · cases h

theorem isInASnapshot_of_mem {s : Snapshot} (hs : s ∈ b.snapshots.rows)
    (h : a.containerVersion = s.version) : b.isInASnapshot a = true := by
  simp only [isInASnapshot, getSnapshots, Bool.not_eq_true', isEmpty_eq_false_iff]
  refine ne_nil_of_mem (a := s) (mem_filter.mpr ⟨hs, ?_⟩)
  simp [h]

theorem buildClause_of_noSnapshot (hs : b.snapshots.rows = []) {c : Clause}
    (hc : b.buildClause url = .ok c) :
    url.version = none ∧ c = .latest ∨ url.version ≠ none ∧ ∃ v, c = .version v := by
  have hname : ∀ name, ∃ e, b.getSnapshotByName name = .error e := by
    simp [getSnapshotByName, getSnapshots, hs]
  obtain ⟨path, vers, snap⟩ := url
  cases snap with
  | some name =>
    obtain ⟨e, he⟩ := hname name
    simp [buildClause, he, Except.map] at hc
  | none =>
    cases vers with
    | none =>
      cases hc
      exact .inl ⟨rfl, rfl⟩
    | some vers =>
      simp only [buildClause, versionClause] at hc
      split at hc
      · obtain ⟨e, he⟩ := hname vers
        simp [he] at hc
      split at hc
      · cases hc
      · cases hc
        exact .inr ⟨nofun, _, rfl⟩

theorem findAliases_single (hs : b.snapshots.rows = []) {rows : List Alias}
    (hf : b.findAliases url { noprops := true } = .ok rows) :
    ∃ r, rows = [r] ∧ r ∈ b.aliases.rows ∧ url.path = some r.alias ∧
      (url.version = none → b.latestRow r.alias = some r) := by
  obtain ⟨path, c, hp, hc, hrows, hne⟩ := findAliases_eq_ok rfl hf
  have hlen : rows.length ≤ 1 := by
    rcases buildClause_of_noSnapshot hs hc with ⟨-, rfl⟩ | ⟨-, v, rfl⟩
    · rw [hrows, selectRows]
      cases b.latestRow path <;> simp
    · simp [hrows, selectRows]
  obtain ⟨r, rfl⟩ : ∃ r, rows = [r] :=
    length_eq_one_iff.mp (by have := length_pos_iff.mpr hne; omega)
  obtain ⟨hm, hpath⟩ := mem_findAliases rfl hf (mem_singleton_self r)
  have hname : path = r.alias := Option.some.inj (hp.symm.trans hpath)
  refine ⟨r, rfl, hm, hpath, fun hv => ?_⟩
  rcases buildClause_of_noSnapshot hs hc with ⟨-, rfl⟩ | ⟨hsome, -⟩
  · rw [selectRows, hname] at hrows
    cases hl : b.latestRow r.alias with
    | none => simp [hl] at hrows
    | some z =>
      rw [hl] at hrows
      exact congrArg some (List.cons.inj hrows).1.symm
  · exact absurd hv hsome

theorem getAlias_noprops (url : Url) : b.getAlias url { noprops := true } =
    (b.findAliases url { noprops := true }).map b.manageAll := by
  simp only [getAlias, bind, Except.bind, Except.map, manageAll]
  cases b.findAliases url { noprops := true } with
  | error e => rfl
  | ok rows => simp

end

end Base

end Redcurrant.Meta2
