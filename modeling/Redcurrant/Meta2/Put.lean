import Redcurrant.Meta2.Lookup

/-!
# alias の書き込み

`m2db_put_alias`・`m2db_force_alias`・`m2db_copy_alias`・`m2db_set_properties`。put は次の
version を書き、force は chunk を加え、copy は content を共有する。
-/

namespace Redcurrant.Meta2

open Infra Sqliterepo List Bean Url Except

/-- base の外から決まるもの -/
structure Env where
  /-- put と append の `m2db_check_alias_beans_list` -/
  checkPut : Url → List Bean → Option GError
  /-- header の更新の `m2db_check_alias_beans_list` -/
  checkUpdate : Url → List Bean → Option GError
  /-- `_patch_alias_metadata`。creation-date を補うので、時刻も引数に取る。 -/
  patchMetadata : Int → Bytes → Bytes
  /-- `_get_container_policy` の名前 -/
  containerPolicy : Option Bytes
  /-- 整数の列と比べるときの文字列の値 -/
  numericText : Bytes → Option Int

variable (env : Env)

/-! ## put の準備 -/

/-- policy の無い header に container の policy を付ける -/
def patchHeader (h : Header) : Header :=
  if h.policy = none ∨ h.policy = some [] then
    { h with policy := some (env.containerPolicy.getD (ascii "none")) }
  else h

/-- 列の中の header だけを変える -/
def mapHeader (f : Header → Header) : Bean → Bean
  | .contentsHeaders h => .contentsHeaders (f h)
  | x => x

/-- 最後の header の size。`m2db_patch_alias_beans_list` の返り値。 -/
def lastSize (beans : List Bean) : Int := ((headersIn beans).getLast?.map Header.size).getD 0

/-- `m2db_patch_alias_beans_list` -/
def patchAliasBeansList (beans : List Bean) : List Bean := beans.map (mapHeader (patchHeader env))

/-- `struct put_args_s` のうち、保存する行を決める部分 -/
structure PutArgs where
  uid : Bytes
  version : Int
  mergeOnly : Bool
  deriving DecidableEq

namespace Base

variable (b : Base)

def putAliasRow (args : PutArgs) (now : Int) (a : Alias) : Alias :=
  { a with
    version := args.version + 1
    contentId := args.uid
    containerVersion := 1 + b.version
    deleted := false
    ctime := now
    mdsys := env.patchMetadata now a.mdsys }

/-- put が保存する bean。`mergeOnly` では alias と header を書かない。 -/
def putBean (args : PutArgs) (now : Int) : Bean → Option Bean
  | .aliases a => if args.mergeOnly then none else some (.aliases (b.putAliasRow env args now a))
  | .properties p => some (.properties { p with aliasVersion := args.version + 1 })
  | .contentsHeaders h =>
    if args.mergeOnly then none else some (.contentsHeaders { h with id := args.uid })
  | .contents c => some (.contents { c with contentId := args.uid })
  | x => some x

/-- `m2db_real_put_alias` が保存する bean -/
def putBeans (args : PutArgs) (now : Int) (beans : List Bean) : List Bean :=
  beans.filterMap (b.putBean env args now)

/-- `m2db_real_put_alias` -/
def realPutAlias (args : PutArgs) (now : Int) (beans : List Bean) : Base :=
  b.saveAll (b.putBeans env args now beans)

/-! ## put -/

/-- put が書く version の 1 つ前と、加える size。version を扱わない container に生きた行があれば error になる。 -/
def putVersion (maxVersions : Int) (path : Bytes) (size : Int) : Except GError (Int × Int) :=
  match b.latestRow path with
  | none => .ok (if VersionsEnabled maxVersions then 0 else -1, size)
  | some latest =>
    if VersionsDisabled maxVersions then
      if latest.deleted then .ok (latest.version, size)
      else .error ⟨codeContentExists, "Versioning disabled and content already available"⟩
    else if VersionsSuspended maxVersions then
      .ok (latest.version - 1, size - b.getAliasSize latest)
    else if latest.deleted && !b.isInASnapshot latest then .ok (latest.version - 1, size)
    else .ok (latest.version, size)

def invalidBeans (e : GError) : GError := { prefixError "Invalid beans: " e with code := 400 }

/-- `m2db_put_alias`。保存した bean と、URL に設定する version を返す。 -/
def putAlias (maxVersions : Int) (url : Url) (beans : List Bean) (uid : Bytes) (now : Int) :
    Except GError (Base × List Bean × Int) := do
  let path ← url.getPath
  let beans' := patchAliasBeansList env beans
  match env.checkPut url beans' with
  | some e => .error (invalidBeans e)
  | none =>
    let (version, size) ← b.putVersion maxVersions path (lastSize beans)
    let args : PutArgs := ⟨uid, version, false⟩
    let b' := b.realPutAlias env args now beans'
    .ok (b'.setSize (b'.size + size), b.putBeans env args now beans', version + 1)

/-! ## force -/

/-- URL の version が指す行。version が無ければ最新の行。 -/
def namedAlias (url : Url) : Except GError (Option Alias) :=
  match url.version with
  | some _ => b.getVersionedAlias env.numericText url
  | none => b.latestAlias url

/-- force が探す行 -/
def forceTarget (url : Url) : Except GError (Option Alias) :=
  match b.namedAlias env url with
  | .ok r => .ok r
  | .error e =>
    if e.code = codeContentNotfound then .ok none else .error (prefixError "Version error: " e)

/-- force が書く version の 1 つ前 -/
def forceVersion (url : Url) : Int := (url.version.map strtoll).getD 0

/-- `m2db_merge_alias`。あった行の header の content に bean を加える。 -/
def mergeAlias (latest : Alias) (version now : Int) (beans : List Bean) : Except GError Base :=
  match (b.headersOf latest.contentId).getLast? with
  | none => .error ⟨500, "HEADER not found"⟩
  | some h => .ok (b.realPutAlias env ⟨h.id, version, true⟩ now beans)

/-- `m2db_force_alias` -/
def forceAlias (url : Url) (beans : List Bean) (uid : Bytes) (now : Int) : Except GError Base := do
  let _ ← url.getPath
  let beans' := patchAliasBeansList env beans
  let found ← b.forceTarget env url
  let b' ← match found with
    | some latest => b.mergeAlias env latest (forceVersion url) now beans'
    | none => .ok (b.realPutAlias env ⟨uid, forceVersion url, false⟩ now beans')
  .ok (b'.setSize (b'.size + lastSize beans))

/-! ## copy -/

def copySource (orig : Url) : Except GError Alias := do
  let found ← b.namedAlias env orig
  match found with
  | none => .error ⟨codeContentNotfound, "Cannot copy content, source doesn't exist"⟩
  | some a =>
    if a.deleted then .error ⟨codeContentNotfound, "Cannot copy content, source is deleted"⟩
    else .ok a

def copyVersion (maxVersions : Int) (path : Bytes) : Except GError Int :=
  match b.latestRow path with
  | none => .ok (if VersionsEnabled maxVersions then 1 else 0)
  | some dst =>
    if VersionsDisabled maxVersions then
      .error ⟨codeContentExists,
        "Cannot copy content,destination already exists (and versioning disabled)"⟩
    else .ok (if VersionsEnabled maxVersions then dst.version + 1 else 0)

/-- `m2db_copy_alias`。`orig` は元の URL で、名前だけなら `url` の path を置き換えたもの。 -/
def copyAlias (maxVersions : Int) (url orig : Url) : Except GError Base := do
  let path ← url.getPath
  let a ← b.copySource env orig
  let version ← b.copyVersion maxVersions path
  .ok (b.save (.aliases { a with «alias» := path, version }))

/-! ## property -/

/-- property の bean を 1 つ保存する。値が空か印のある bean は key の行をすべて消す。 -/
def setProperty (path : Bytes) (version : Int) (b : Base) : Bean → Base
  | .properties p =>
    if p.value.isEmpty || p.deleted then
      { b with properties := b.properties.delete fun q => q.alias = path && q.key = p.key }
    else b.save (.properties { p with «alias» := path, aliasVersion := version })
  | _ => b

/-- `m2db_set_properties` -/
def setProperties (maxVersions : Int) (url : Url) (beans : List Bean) : Except GError Base := do
  if beans = [] then .error ⟨400, "No properties"⟩ else
  let path ← url.getPath
  match b.latestRow path with
  | none => .error ⟨codeContentNotfound, "Alias not found"⟩
  | some latest =>
    if latest.deleted then .error ⟨codeContentNotfound, "Alias deleted"⟩
    else if VersionsEnabled maxVersions then
      let row := { latest with
        containerVersion := b.version + 1
        version := latest.version + 1 }
      .ok (beans.foldl (setProperty path row.version) (b.save (.aliases row)))
    else .ok (beans.foldl (setProperty path latest.version) b)

/-! ## 書いた行 -/

section

variable {env b} {args : PutArgs} {now : Int} {beans : List Bean}

theorem aliasesIn_patch : aliasesIn (patchAliasBeansList env beans) = aliasesIn beans := by
  refine (filterMap_map_rewrite (g := id) (fun x => ?_) beans).trans (map_id _)
  cases x <;> rfl

theorem headersIn_patch :
    headersIn (patchAliasBeansList env beans) = (headersIn beans).map (patchHeader env) := by
  refine filterMap_map_rewrite (fun x => ?_) beans
  cases x <;> rfl

theorem propertiesIn_patch : propertiesIn (patchAliasBeansList env beans) = propertiesIn beans := by
  refine (filterMap_map_rewrite (g := id) (fun x => ?_) beans).trans (map_id _)
  cases x <;> rfl

theorem chunksIn_patch : chunksIn (patchAliasBeansList env beans) = chunksIn beans := by
  refine (filterMap_map_rewrite (g := id) (fun x => ?_) beans).trans (map_id _)
  cases x <;> rfl

theorem snapshotsIn_patch : snapshotsIn (patchAliasBeansList env beans) = snapshotsIn beans := by
  refine (filterMap_map_rewrite (g := id) (fun x => ?_) beans).trans (map_id _)
  cases x <;> rfl

theorem aliasesIn_putBeans (h : args.mergeOnly = false) :
    aliasesIn (b.putBeans env args now beans) =
      (aliasesIn beans).map (b.putAliasRow env args now) := by
  refine filterMap_rewrite (fun x => ?_) beans
  cases x <;> simp [putBean, alias?, h]

theorem headersIn_putBeans (h : args.mergeOnly = false) :
    headersIn (b.putBeans env args now beans) =
      (headersIn beans).map fun h => { h with id := args.uid } := by
  refine filterMap_rewrite (fun x => ?_) beans
  cases x <;> simp [putBean, header?, h]

theorem propertiesIn_putBeans : propertiesIn (b.putBeans env args now beans) =
    (propertiesIn beans).map fun p => { p with aliasVersion := args.version + 1 } := by
  refine filterMap_rewrite (fun x => ?_) beans
  cases x <;> cases hm : args.mergeOnly <;> simp [putBean, property?, hm]

theorem contentsIn_putBeans : contentsIn (b.putBeans env args now beans) =
    (contentsIn beans).map fun c => { c with contentId := args.uid } := by
  refine filterMap_rewrite (fun x => ?_) beans
  cases x <;> cases hm : args.mergeOnly <;> simp [putBean, content?, hm]

theorem chunksIn_putBeans : chunksIn (b.putBeans env args now beans) = chunksIn beans := by
  refine (filterMap_rewrite (g := id) (fun x => ?_) beans).trans (map_id _)
  cases x <;> cases hm : args.mergeOnly <;> simp [putBean, chunk?, hm]

theorem snapshotsIn_putBeans : snapshotsIn (b.putBeans env args now beans) = snapshotsIn beans := by
  refine (filterMap_rewrite (g := id) (fun x => ?_) beans).trans (map_id _)
  cases x <;> cases hm : args.mergeOnly <;> simp [putBean, snapshot?, hm]

theorem in_putBeans_merge (h : args.mergeOnly = true) :
    aliasesIn (b.putBeans env args now beans) = [] ∧
      headersIn (b.putBeans env args now beans) = [] := by
  rw [aliasesIn, headersIn, putBeans, filterMap_filterMap, filterMap_filterMap,
    filterMap_eq_nil_iff, filterMap_eq_nil_iff]
  constructor
  · intro x _
    cases x <;> simp [putBean, alias?, h]
  · intro x _
    cases x <;> simp [putBean, header?, h]

end

/-! ## 成功した操作 -/

section

variable {env b} {b' : Base} {m now : Int} {url orig : Url} {beans : List Bean} {uid : Bytes}

theorem putAlias_eq_ok {out : List Bean} {v : Int}
    (h : b.putAlias env m url beans uid now = .ok (b', out, v)) :
    ∃ path version size, url.path = some path ∧
      b.putVersion m path (lastSize beans) = .ok (version, size) ∧
      b' = (b.realPutAlias env ⟨uid, version, false⟩ now
        (patchAliasBeansList env beans)).setSize (b.size + size) := by
  obtain ⟨path, vers, snap⟩ := url
  cases path with
  | none => simp [putAlias, Url.getPath, bind, Except.bind] at h
  | some path =>
    simp only [putAlias, Url.getPath, bind, Except.bind] at h
    split at h
    · cases h
    split at h
    · cases h
    rename_i vs hv
    obtain ⟨version, size⟩ := vs
    simp only [realPutAlias, size_saveAll] at h
    cases h
    exact ⟨path, version, size, rfl, hv, rfl⟩

variable {size version size' : Int}

theorem putVersion_eq_ok {path : Bytes} (h : b.putVersion m path size = .ok (version, size')) :
    (b.latestRow path = none ∧ size' = size ∧ -1 ≤ version) ∨
      ∃ latest, b.latestRow path = some latest ∧
        ((version + 1 = latest.version + 1 ∧ size' = size) ∨
          (VersionsSuspended m ∧ version + 1 = latest.version ∧
            size' = size - b.getAliasSize latest) ∨
          (VersionsEnabled m ∧ latest.deleted = true ∧ version + 1 = latest.version ∧
            size' = size)) := by
  simp only [putVersion] at h
  split at h
  · next hnone =>
    refine .inl ⟨hnone, ?_⟩
    cases h
    split <;> omega
  · next latest hlatest =>
    refine .inr ⟨latest, hlatest, ?_⟩
    by_cases hdis : VersionsDisabled m
    · rw [if_pos hdis] at h
      split at h
      · cases h
        exact .inl ⟨rfl, rfl⟩
      · cases h
    rw [if_neg hdis] at h
    by_cases hsus : VersionsSuspended m
    · rw [if_pos hsus] at h
      cases h
      exact .inr (.inl ⟨hsus, by omega, rfl⟩)
    rw [if_neg hsus] at h
    have hen : VersionsEnabled m := ((versions_cases m).resolve_left hdis).resolve_left hsus
    split at h
    · next hdel =>
      cases h
      rw [Bool.and_eq_true] at hdel
      exact .inr (.inr ⟨hen, hdel.1, by omega, rfl⟩)
    · cases h
      exact .inl ⟨rfl, rfl⟩

theorem forceAlias_eq_ok (h : b.forceAlias env url beans uid now = .ok b') :
    ∃ found b1, b.forceTarget env url = .ok found ∧ b' = b1.setSize (b.size + lastSize beans) ∧
      ((∃ latest id, found = some latest ∧ b1 = b.realPutAlias env ⟨id, forceVersion url, true⟩
          now (patchAliasBeansList env beans)) ∨
        (found = none ∧ b1 = b.realPutAlias env ⟨uid, forceVersion url, false⟩ now
          (patchAliasBeansList env beans))) := by
  obtain ⟨path, vers, snap⟩ := url
  cases path with
  | none => simp [forceAlias, Url.getPath, bind, Except.bind] at h
  | some path =>
    simp only [forceAlias, Url.getPath, bind, Except.bind] at h
    split at h
    · cases h
    rename_i found hf
    refine ⟨found, ?_⟩
    cases found with
    | none =>
      simp only [realPutAlias, size_saveAll] at h
      cases h
      exact ⟨_, hf, rfl, .inr ⟨rfl, rfl⟩⟩
    | some latest =>
      simp only [mergeAlias] at h
      split at h
      · cases h
      rename_i b1 hb
      split at hb
      · cases hb
      rename_i hd _
      cases hb
      simp only [realPutAlias, size_saveAll] at h
      cases h
      exact ⟨_, hf, rfl, .inl ⟨latest, hd.id, rfl, rfl⟩⟩

theorem namedAlias_mem {a : Alias} (h : b.namedAlias env url = .ok (some a)) :
    a ∈ b.aliases.rows ∧ url.path = some a.alias := by
  obtain ⟨path, vers, snap⟩ := url
  cases path with
  | none => cases vers <;> simp [namedAlias, getVersionedAlias, latestAlias, Url.getPath, bind,
      Except.bind, Except.map] at h
  | some path =>
    cases vers with
    | none =>
      simp only [namedAlias, latestAlias, Url.getPath, Except.map, Except.ok.injEq] at h
      obtain ⟨hm, rfl⟩ := latestRow_mem h
      exact ⟨hm, rfl⟩
    | some vers =>
      simp only [namedAlias, getVersionedAlias, Url.getPath, bind, Except.bind,
        Except.ok.injEq] at h
      obtain ⟨hm, rfl⟩ := mem_aliasRows.mp (mem_of_find?_eq_some h)
      exact ⟨hm, rfl⟩

theorem copySource_eq_ok {a : Alias} (h : b.copySource env orig = .ok a) :
    a ∈ b.aliases.rows ∧ a.deleted = false := by
  simp only [copySource, bind, Except.bind] at h
  cases hf : b.namedAlias env orig with
  | error e => simp [hf] at h
  | ok found =>
    cases found with
    | none => simp [hf] at h
    | some r =>
      simp only [hf] at h
      by_cases hd : r.deleted = true
      · simp [hd] at h
      simp only [if_neg hd, Except.ok.injEq] at h
      subst h
      exact ⟨(namedAlias_mem hf).1, by simpa using hd⟩

theorem putVersion_enabled {path : Bytes} (hm : VersionsEnabled m)
    (h : b.putVersion m path size = .ok (version, size')) {r : Alias} (hr : r ∈ b.aliases.rows)
    (hn : r.alias = path) (hv : r.version = version + 1) : b.isInASnapshot r = false := by
  simp only [putVersion, if_neg hm.not_disabled, if_neg hm.not_suspended] at h
  split at h
  · next hnone => exact absurd hn (no_row_of_latestRow_none hnone hr)
  rename_i latest hlatest
  split at h
  · next hd =>
    cases h
    obtain ⟨hlm, hln⟩ := latestRow_mem hlatest
    rw [alias_unique hr hlm (hn.trans hln.symm) (by omega)]
    simpa using (Bool.and_eq_true_iff.mp hd).2
  · cases h
    exact absurd hv (no_row_after_latestRow hlatest hr hn)

theorem copyVersion_eq_ok {path : Bytes} (h : b.copyVersion m path = .ok version) :
    (b.latestRow path = none ∧ 0 ≤ version) ∨ ∃ dst, b.latestRow path = some dst ∧
        ((VersionsEnabled m ∧ version = dst.version + 1) ∨
          (VersionsSuspended m ∧ version = 0)) := by
  simp only [copyVersion] at h
  split at h
  · next hnone =>
    cases h
    refine .inl ⟨hnone, ?_⟩
    split <;> omega
  rename_i dst hdst
  refine .inr ⟨dst, hdst, ?_⟩
  split at h
  · cases h
  rename_i hdis
  cases h
  by_cases hen : VersionsEnabled m
  · exact .inl ⟨hen, if_pos hen⟩
  · exact .inr ⟨((versions_cases m).resolve_left hdis).resolve_right hen, if_neg hen⟩

theorem copyAlias_eq_ok (h : b.copyAlias env m url orig = .ok b') :
    ∃ path a version, url.path = some path ∧ b.copySource env orig = .ok a ∧
      b.copyVersion m path = .ok version ∧
      b' = b.save (.aliases { a with «alias» := path, version }) := by
  obtain ⟨path, vers, snap⟩ := url
  cases path with
  | none => simp [copyAlias, Url.getPath, bind, Except.bind] at h
  | some path =>
    simp only [copyAlias, Url.getPath, bind, Except.bind] at h
    split at h
    · cases h
    rename_i a ha
    split at h
    · cases h
    · next version hv =>
      cases h
      exact ⟨path, a, version, rfl, ha, hv, rfl⟩

section

variable (path : Bytes) (version : Int) (beans : List Bean) (b : Base)

theorem foldl_setProperty :
    ∃ t, beans.foldl (setProperty path version) b = { b with properties := t } := by
  induction beans generalizing b with
  | nil => exact ⟨b.properties, rfl⟩
  | cons x beans ih =>
    obtain ⟨t, ht⟩ := ih (setProperty path version b x)
    refine ⟨t, ?_⟩
    rw [foldl_cons, ht]
    cases x with
    | properties p =>
      simp only [setProperty]
      split <;> rfl
    | _ => rfl

theorem aliases_setProperty : (beans.foldl (setProperty path version) b).aliases = b.aliases := by
  obtain ⟨t, ht⟩ := foldl_setProperty path version beans b
  rw [ht]

end

theorem setProperties_eq_save (hm : VersionsEnabled m) (h : b.setProperties m url beans = .ok b') :
    ∃ latest, url.path = some latest.alias ∧ b.latestRow latest.alias = some latest ∧
      latest.deleted = false ∧
      b' = beans.foldl (setProperty latest.alias (latest.version + 1)) (b.save (.aliases
        { latest with containerVersion := b.version + 1, version := latest.version + 1 })) := by
  obtain ⟨path, vers, snap⟩ := url
  simp only [setProperties, bind, Except.bind] at h
  split at h
  · cases h
  cases path with
  | none => simp [Url.getPath] at h
  | some path =>
    simp only [Url.getPath] at h
    split at h
    · cases h
    rename_i latest hlatest
    obtain ⟨-, rfl⟩ := latestRow_mem hlatest
    split at h
    · cases h
    · next hlive =>
      cases h
      exact ⟨latest, rfl, hlatest, Bool.eq_false_iff.mpr hlive, rfl⟩

end

end Base

end Redcurrant.Meta2
