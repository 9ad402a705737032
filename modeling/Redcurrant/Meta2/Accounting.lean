import Redcurrant.Meta2.Size

/-!
# 操作ごとの size の記録

purge のほかの操作は size の記録を増減する。合うかは上書きされる行が content への最後の参照であるかによる。
-/

namespace Redcurrant.Meta2

open Infra Sqliterepo List

namespace Base

variable {env : Env} {b b' : Base} {a r : Alias} {h : Header} {m now : Int} {url : Url}
variable {beans : List Bean} {uid uid' : Bytes}

/-! ## 条件 -/

/-- bean は URL の path の alias と header を 1 つずつ持ち、snapshot を持たない -/
def OneContent (url : Url) (beans : List Bean) : Prop :=
  ∃ a h, aliasesIn beans = [a] ∧ url.path = some a.alias ∧ headersIn beans = [h] ∧
    snapshotsIn beans = []

def PutKept (b : Base) (m : Int) (url : Url) (beans : List Bean) (uid : Bytes) : Prop :=
  OneContent url beans ∧ b.FreshUid uid ∧
    ∀ path latest, url.path = some path → b.latestRow path = some latest →
      (VersionsSuspended m → b.LastReference latest) ∧
        (VersionsEnabled m → latest.deleted = true → ¬ b.LastReference latest)

/-- append の記録が合う条件。行が無いか削除済みなら、put と同じである。 -/
def AppendKept (b : Base) (m : Int) (url : Url) (beans : List Bean) (uid uid' : Bytes) : Prop :=
  match b.findAliases url { noprops := true } with
  | .error _ => b.PutKept m url beans uid'
  | .ok rows => ∀ r ∈ rows,
      if r.deleted then b.PutKept m url beans uid'
      else OneContent url beans ∧ b.FreshUid uid ∧
        (VersionsEnabled m → ∀ x ∈ b.aliases.rows, x.alias = r.alias →
          x.version = r.version + 1 → ¬ b.LastReference x) ∧
        (¬ VersionsEnabled m → b.LastReference r)

def CopyKept (env : Env) (b : Base) (m : Int) (url orig : Url) : Prop :=
  VersionsSuspended m → ∀ src, b.copySource env orig = .ok src →
    ∀ x ∈ b.aliases.rows, url.path = some x.alias → x.version = 0 →
      x.contentId = src.contentId ∨ ¬ b.LastReference x

def ForceKept (env : Env) (b : Base) (url : Url) (beans : List Bean) (uid : Bytes) : Prop :=
  snapshotsIn beans = [] ∧ ∀ found, b.forceTarget env url = .ok found → match found with
    | some _ => lastSize beans = 0
    | none => OneContent url beans ∧ b.FreshUid uid ∧
        ∀ x ∈ b.aliases.rows, url.path = some x.alias → x.version = forceVersion url + 1 →
          ¬ b.LastReference x

def UpdateKept (b : Base) (m : Int) (url : Url) (beans : List Bean) (uid : Bytes) : Prop :=
  OneContent url beans ∧ b.FreshUid uid ∧
    ∀ path latest, url.path = some path → b.latestRow path = some latest →
      if VersionsEnabled m then lastSize beans = 0
      else b.LastReference latest ∧ b.getAliasSize latest = lastSize beans

/-! ## 1 つの content を書く操作 -/

theorem lastSize_eq (hh : headersIn beans = [h]) : lastSize beans = h.size := by
  simp [lastSize, hh]

section

variable (hs : b.Sized)
include hs

theorem Sized.getAliasSize_eq (ha : a ∈ b.aliases.rows) :
    ∃ x ∈ b.headers.rows, x.id = a.contentId ∧ b.getAliasSize a = x.size := by
  obtain ⟨x, hx, hi, he⟩ := hs.headersOf_eq ha
  exact ⟨x, hx, hi, by simp [getAliasSize, he]⟩

theorem Written.sized_of_shared (w : b.Written a h b') (hv : minInt64 < a.version)
    (hsh : ∀ r ∈ b.aliases.rows, a.alias = r.alias → a.version = r.version → ¬ b.LastReference r)
    (hsize : b'.size = b.size + h.size) : b'.Sized := by
  refine w.sized hs hv ?_
  have hsh' : ∀ r ∈ b.aliases.rows, Clash Alias.pk a r → ¬ b.LastReference r := by
    intro r hr hc
    exact hsh r hr (clash_alias.mp hc).1 (clash_alias.mp hc).2
  rw [w.total_of_shared hsh', hsize, hs.size]

theorem Written.sized_of_last (w : b.Written a h b') (hr : r ∈ b.aliases.rows)
    (hn : a.alias = r.alias) (hver : a.version = r.version) (hlast : b.LastReference r)
    (hsize : b'.size = b.size + h.size - b.getAliasSize r) : b'.Sized := by
  refine w.sized hs (hver ▸ hs.versions r hr) ?_
  obtain ⟨x, hx, hi, he⟩ := hs.getAliasSize_eq hr
  rw [w.total_of_last hs hr (clash_alias.mpr ⟨hn, hver⟩) hlast hx hi, hsize, he, hs.size]

omit hs in
theorem written_realPut (env : Env) (now version size : Int) {a0 : Alias} {h0 : Header}
    (ha : aliasesIn beans = [a0]) (hh : headersIn beans = [h0]) (hsn : snapshotsIn beans = [])
    (hf : b.FreshUid uid) : b.Written (b.putAliasRow env ⟨uid, version, false⟩ now a0)
      { patchHeader env h0 with id := uid }
      ((b.realPutAlias env ⟨uid, version, false⟩ now (patchAliasBeansList env beans)).setSize
        size) := by
  refine ⟨?_, ?_, ?_, rfl, hf⟩
  · simp only [realPutAlias, setSize, aliases_saveAll]
    rw [aliasesIn_putBeans rfl, aliasesIn_patch, ha]
    rfl
  · simp only [realPutAlias, setSize, headers_saveAll]
    rw [headersIn_putBeans rfl, headersIn_patch, hh]
    rfl
  · simp only [realPutAlias, setSize, snapshots_saveAll]
    rw [snapshotsIn_putBeans, snapshotsIn_patch, hsn]
    rfl

omit hs in
theorem size_patchHeader (env : Env) (h : Header) : (patchHeader env h).size = h.size := by
  simp only [patchHeader]
  split <;> rfl

/-! ## put -/

theorem Sized.putAlias (hk : b.PutKept m url beans uid) {out : List Bean} {v : Int}
    (hok : b.putAlias env m url beans uid now = .ok (b', out, v)) : b'.Sized := by
  obtain ⟨⟨a0, h0, ha, hp0, hh, hsn⟩, hf, hlatest⟩ := hk
  obtain ⟨path, version, size, hp, hv, rfl⟩ := putAlias_eq_ok hok
  have hname : a0.alias = path := Option.some.inj (hp0.symm.trans hp)
  subst hname
  have w := written_realPut env now version (b.size + size) ha hh hsn hf
  have hver : (b.putAliasRow env ⟨uid, version, false⟩ now a0).version = version + 1 := rfl
  have hsz : ({ patchHeader env h0 with id := uid } : Header).size = lastSize beans := by
    rw [lastSize_eq hh]
    exact size_patchHeader env h0
  rcases putVersion_eq_ok hv with ⟨hnone, rfl, hmin⟩ |
    ⟨latest, hl, ⟨hv', rfl⟩ | ⟨hsus, hv', rfl⟩ | ⟨hen, hd, hv', rfl⟩⟩
  · refine w.sized_of_shared hs ?_ (fun r hr hn _ => ?_) ?_
    · rw [minInt64]
      omega
    · exact absurd hn.symm (no_row_of_latestRow_none hnone hr)
    · exact congrArg (b.size + ·) hsz.symm
  · have hlm := (latestRow_mem hl).1
    refine w.sized_of_shared hs ?_ (fun r hr hn hrv => ?_) ?_
    · have := hs.versions latest hlm
      omega
    · exact absurd (hrv.symm.trans (hver.trans hv')) (no_row_after_latestRow hl hr hn.symm)
    · exact congrArg (b.size + ·) hsz.symm
  · obtain ⟨hlm, hln⟩ := latestRow_mem hl
    refine w.sized_of_last hs hlm hln.symm (hver.trans hv') ((hlatest _ _ hp hl).1 hsus) ?_
    show b.size + (lastSize beans - b.getAliasSize latest) = _
    omega
  · obtain ⟨hlm, hln⟩ := latestRow_mem hl
    refine w.sized_of_shared hs ?_ (fun r hr hn hrv => ?_) ?_
    · have := hs.versions latest hlm
      omega
    · have : r = latest :=
        alias_unique hr hlm (hn.symm.trans hln.symm) (hrv.symm.trans (hver.trans hv'))
      exact this ▸ (hlatest _ _ hp hl).2 hen hd
    · exact congrArg (b.size + ·) hsz.symm

/-! ## append -/

omit hs in
theorem headersIn_append (l l' : List Bean) :
    headersIn (l ++ l') = headersIn l ++ headersIn l' := filterMap_append

omit hs in
theorem headersIn_manageAll (hs : b.headersOf r.contentId = [h]) :
    headersIn (b.manageAll [r]) = [h] := by
  have hcontents : headersIn ((drain (b.contentsOf h.id)).flatMap b.manageContent) = [] := by
    refine filterMap_eq_nil_iff.mpr fun x hx => ?_
    obtain ⟨c, -, hx⟩ := mem_flatMap.mp hx
    rcases mem_append.mp hx with hx | hx
    · obtain ⟨k, -, rfl⟩ := mem_map.mp hx
      rfl
    · rw [mem_singleton.mp hx]
      rfl
  have hall : b.manageAll [r] = b.manageHeader h ++ [.aliases r] := by
    simp [manageAll, drain, manageAlias, hs]
  rw [hall, headersIn_append, manageHeader, headersIn_append, hcontents]
  rfl

omit hs in
theorem aliasesIn_manageAll_single {x : Alias} : x ∈ aliasesIn (b.manageAll [r]) ↔ x = r := by
  rw [mem_aliasesIn, mem_manageAll_aliases, mem_singleton]

theorem Sized.keepOld_single (hr : r ∈ b.aliases.rows)
    (hfresh : (keepOld uid (b.manageAll [r]) {}).fresh = false) :
    r.deleted = false ∧ (keepOld uid (b.manageAll [r]) {}).oldVersion = r.version ∧
      (keepOld uid (b.manageAll [r]) {}).oldSize = b.getAliasSize r := by
  obtain ⟨-, hall, hfrom⟩ := keepOld_version hfresh
  have hle := hall r (aliasesIn_manageAll_single.mpr rfl)
  have hmin := hs.versions r hr
  have hne : (keepOld uid (b.manageAll [r]) {}).oldVersion ≠ minInt64 := by omega
  obtain ⟨q, hq, hqd, hqv⟩ := hfrom.resolve_left hne
  rw [aliasesIn_manageAll_single] at hq
  subst hq
  refine ⟨hqd, hqv.symm, ?_⟩
  obtain ⟨x, -, -, he⟩ := hs.headersOf_eq hr
  have hsize : (keepOld uid (b.manageAll [q]) {}).oldSize = _ := congrArg Prod.fst keepOld_header
  rw [hsize, headersIn_manageAll he, getAliasSize, he]
  rfl

omit hs in
theorem Appended.written {ctx : AppendContext} {a0 : Alias} {h0 : Header}
    (happ : b.Appended m beans uid ctx b') (ha : aliasesIn beans = [a0])
    (hh : headersIn beans = [h0]) (hu : b.FreshUid uid) :
    b.Written (appendAliasRow uid ctx (1 + b.version) (ctx.version m) a0)
      (appendHeaderRow uid ctx h0) b' := by
  refine ⟨?_, ?_, happ.snapshots, rfl, hu⟩
  · rw [happ.aliases, ha]
    rfl
  · rw [happ.headers, hh]
    rfl

theorem Sized.append (hr : r ∈ b.aliases.rows) (hp : url.path = some r.alias)
    (hfresh : (keepOld uid (b.manageAll [r]) {}).fresh = false)
    (happ : b.Appended m beans uid (keepOld uid (b.manageAll [r]) {}) b')
    (hone : OneContent url beans) (hu : b.FreshUid uid)
    (hnext : VersionsEnabled m → ∀ x ∈ b.aliases.rows, x.alias = r.alias →
      x.version = r.version + 1 → ¬ b.LastReference x)
    (hlast : ¬ VersionsEnabled m → b.LastReference r) : b'.Sized := by
  obtain ⟨a0, h0, ha, hp0, hh, -⟩ := hone
  obtain ⟨-, hov, hos⟩ := hs.keepOld_single hr hfresh
  have w := happ.written ha hh hu
  have hname : a0.alias = r.alias := Option.some.inj (hp0.symm.trans hp)
  have hmin := hs.versions r hr
  have hsz : (appendHeaderRow uid (keepOld uid (b.manageAll [r]) {}) h0).size =
      lastSize beans + b.getAliasSize r := by
    rw [lastSize_eq hh, ← hos]
    rfl
  by_cases hen : VersionsEnabled m
  · have hver : (keepOld uid (b.manageAll [r]) {}).version m = r.version + 1 := by
      simp only [AppendContext.version, hov, if_neg hmin.ne', if_pos hen]
    refine w.sized_of_shared hs ?_ (fun x hx hn hxv => ?_) ?_
    · show minInt64 < (keepOld uid (b.manageAll [r]) {}).version m
      omega
    · exact hnext hen x hx (hn.symm.trans hname) (hxv.symm.trans hver)
    · rw [happ.size, if_pos hen, hsz, hos]
  · have hver : (keepOld uid (b.manageAll [r]) {}).version m = r.version := by
      simp only [AppendContext.version, hov, if_neg hmin.ne', if_neg hen]
    refine w.sized_of_last hs hr hname hver (hlast hen) ?_
    rw [happ.size, if_neg hen]
    omega

theorem Sized.appendToAlias (hk : b.AppendKept m url beans uid uid') {out : List Bean}
    (hok : b.appendToAlias env m url beans uid uid' now = .ok (b', out)) :
    b'.Sized := by
  simp only [AppendKept] at hk
  rcases appendToAlias_cases hok with ⟨⟨v, hput⟩, hwhy⟩ | ⟨rows, hf, hfresh, happ⟩
  · -- 行が無いか削除済みなら put
    rcases hwhy with ⟨e, hf⟩ | ⟨rows, hf, r, hr, hd⟩
    · rw [hf] at hk
      exact hs.putAlias hk hput
    rw [hf] at hk
    have hk := hk r hr
    rw [hd] at hk
    exact hs.putAlias hk hput
  · obtain ⟨r, rfl, hr, hp, -⟩ := findAliases_single hs.noSnapshot hf
    rw [hf] at hk
    have hk := hk r (mem_singleton_self r)
    rw [(hs.keepOld_single hr hfresh).1] at hk
    obtain ⟨hone, hu, hnext, hlast⟩ := hk
    exact hs.append hr hp hfresh (appended_appendOld rfl happ) hone hu hnext hlast

/-! ## copy と force -/

theorem Sized.copyAlias {orig : Url} (hk : b.CopyKept env m url orig)
    (hok : b.copyAlias env m url orig = .ok b') : b'.Sized := by
  obtain ⟨path, src, version, hp, hsrc, hv, rfl⟩ := copyAlias_eq_ok hok
  have hsm := (copySource_eq_ok hsrc).1
  have w : b.Aliased { src with «alias» := path, version }
      (b.save (.aliases { src with «alias» := path, version })) := ⟨rfl, rfl, rfl, rfl⟩
  have hmin0 : minInt64 < 0 := by decide
  rcases copyVersion_eq_ok hv with ⟨hnone, hv0⟩ | ⟨dst, hdst, ⟨-, rfl⟩ | ⟨hsus, rfl⟩⟩
  · refine w.sized hs ⟨src, hsm, rfl⟩ (lt_of_lt_of_le hmin0 hv0) fun r hr hc => ?_
    exact absurd (clash_alias.mp hc).1.symm (no_row_of_latestRow_none hnone hr)
  · refine w.sized hs ⟨src, hsm, rfl⟩ ?_ fun r hr hc => ?_
    · have := hs.versions dst (latestRow_mem hdst).1
      show minInt64 < dst.version + 1
      omega
    · obtain ⟨hn, hrv⟩ := clash_alias.mp hc
      exact absurd hrv.symm (no_row_after_latestRow hdst hr hn.symm)
  · refine w.sized hs ⟨src, hsm, rfl⟩ hmin0 fun r hr hc => ?_
    obtain ⟨hn, hrv⟩ := clash_alias.mp hc
    exact hk hsus src hsrc r hr (hn ▸ hp) hrv.symm

theorem Sized.of_eq (ha : b'.aliases = b.aliases) (hh : b'.headers = b.headers)
    (hsn : b'.snapshots = b.snapshots) (hz : b'.size = b.size) : b'.Sized := by
  have htotal : b'.getContainerSize true = b.getContainerSize true := by
    simp only [getContainerSize, ha, hh]
  exact ⟨hz.trans (hs.size.trans htotal.symm), ha ▸ hh ▸ hs.image, hh ▸ hs.oneHeader,
    hsn ▸ hs.noSnapshot, ha ▸ hs.versions⟩

theorem Sized.forceAlias (hk : b.ForceKept env url beans uid)
    (hok : b.forceAlias env url beans uid now = .ok b') : b'.Sized := by
  obtain ⟨hsn, hfound⟩ := hk
  obtain ⟨found, b1, hf, rfl, ⟨latest, id, rfl, rfl⟩ | ⟨rfl, rfl⟩⟩ := forceAlias_eq_ok hok
  · -- あった alias に加えるなら、alias も header も書かない
    have hz : lastSize beans = 0 := hfound _ hf
    refine hs.of_eq ?_ ?_ ?_ ?_
    · simp only [realPutAlias, setSize, aliases_saveAll]
      rw [(in_putBeans_merge rfl).1]
      rfl
    · simp only [realPutAlias, setSize, headers_saveAll]
      rw [(in_putBeans_merge rfl).2]
      rfl
    · simp only [realPutAlias, setSize, snapshots_saveAll]
      rw [snapshotsIn_putBeans, snapshotsIn_patch, hsn]
      rfl
    · show b.size + lastSize beans = b.size
      omega
  · obtain ⟨⟨a0, h0, ha, hp, hh, -⟩, hu, hnext⟩ := hfound _ hf
    have w := written_realPut env now (forceVersion url) (b.size + lastSize beans) ha hh hsn hu
    refine w.sized_of_shared hs ?_ (fun x hx hn hxv => ?_) ?_
    · show minInt64 < forceVersion url + 1
      have hb : minInt64 ≤ forceVersion url := by
        cases hv : url.version with
        | none => simp [forceVersion, hv, minInt64]
        | some vers =>
          have := strtoll_bounds vers
          simp only [forceVersion, hv, Option.map_some, Option.getD_some, minInt64]
          omega
      omega
    · have hn' : a0.alias = x.alias := hn
      exact hnext x hx (hn' ▸ hp) hxv.symm
    · show b.size + lastSize beans = b.size + (patchHeader env h0).size
      rw [size_patchHeader, lastSize_eq hh]

/-! ## header の更新 -/

theorem Sized.updateAliasHeader {skip : Bool} (hk : b.UpdateKept m url beans uid)
    (hok : b.updateAliasHeader env m url beans skip uid = some (.ok b')) : b'.Sized := by
  obtain ⟨⟨a0, h0, ha, hp0, hh, hsn⟩, hu, hlatest⟩ := hk
  obtain ⟨path, latest, hp, hl, rfl⟩ := updateAliasHeader_eq_ok hok
  have hname : a0.alias = path := Option.some.inj (hp0.symm.trans hp)
  subst hname
  obtain ⟨hlm, hln⟩ := latestRow_mem hl
  generalize hver : (if VersionsEnabled m then latest.version + 1 else latest.version) = version
  have w : b.Written { a0 with containerVersion := 1 + b.version, version, contentId := uid }
      { h0 with id := uid } (b.saveAll (beans.map (updateNewBean uid (1 + b.version) version))) := by
    refine ⟨?_, ?_, ?_, rfl, hu⟩
    · rw [aliases_saveAll, aliasesIn_update, ha]
      rfl
    · rw [headers_saveAll, headersIn_update, hh]
      rfl
    · rw [snapshots_saveAll, snapshotsIn_update, hsn]
      rfl
  have hk := hlatest _ _ hp hl
  rw [lastSize_eq hh] at hk
  by_cases hen : VersionsEnabled m
  · rw [if_pos hen] at hk hver
    refine w.sized_of_shared hs ?_ (fun x hx hn hxv => ?_) ?_
    · have := hs.versions latest hlm
      show minInt64 < version
      omega
    · exact absurd (hxv.symm.trans hver.symm) (no_row_after_latestRow hl hx hn.symm)
    rw [size_saveAll]
    show b.size = b.size + h0.size
    omega
  · rw [if_neg hen] at hk hver
    refine w.sized_of_last hs hlm hln.symm hver.symm hk.1 ?_
    rw [size_saveAll]
    show b.size = b.size + h0.size - b.getAliasSize latest
    omega

/-! ## 削除 -/

omit hs in
theorem headersIn_purgeAliasBeingDeleted (beans : List Bean) :
    headersIn (b.purgeAliasBeingDeleted beans) =
      ((headersIn beans).filter fun h => (b.aliasesOf h.id).length ≤ 1).reverse := by
  have hsecond : headersIn
      (if b.headerDeleted beans then (beans.filter b.dropsSecond).reverse else []) = [] := by
    refine filterMap_eq_nil_iff.mpr fun x hx => ?_
    split at hx
    · have hd := (mem_filter.mp (mem_reverse.mp hx)).2
      cases x with
      | contentsHeaders h => cases hd
      | _ => rfl
    · cases hx
  have hfirst : headersIn (beans.filter b.dropsFirst) =
      (headersIn beans).filter fun h => (b.aliasesOf h.id).length ≤ 1 := by
    simp only [headersIn, filterMap_filter, filter_filterMap]
    congr 1
    funext x
    cases x <;> simp [dropsFirst, Bean.header?, Option.filter]
  rw [purgeAliasBeingDeleted, headersIn_append, hsecond, nil_append, headersIn,
    filterMap_reverse, ← headersIn, hfirst]

theorem size_realDeleted (hr : r ∈ b.aliases.rows) (dc : Bool) : (b.realDeleted [r] dc).size =
    b.size - if (b.aliasesOf r.contentId).length ≤ 1 then b.getAliasSize r else 0 := by
  obtain ⟨x, -, hi, he⟩ := hs.headersOf_eq hr
  have hheaders : headersIn (b.manageAll [r]).reverse = [x] := by
    rw [headersIn, filterMap_reverse, ← headersIn, headersIn_manageAll he]
    rfl
  have hsize : b.getAliasSize r = x.size := by simp [getAliasSize, he]
  simp only [realDeleted, realDelete, setSize]
  rw [headersIn_purgeAliasBeingDeleted, hheaders, hsize]
  split
  · next hlen => simp [hi, hlen]
  · next hlen => simp [hi, hlen]

end

section

variable (hr : r ∈ b.aliases.rows)
include hr

theorem total_realDeleted (dc : Bool) : (b.realDeleted [r] dc).getContainerSize true =
    ((b.headers.rows.filter fun h => decide ((b.realDeleted [r] dc).Referenced h.id)).map
      Header.size).sum := by
  have hsub : ∀ a ∈ [r], a ∈ b.aliases.rows := fun a ha => mem_singleton.mp ha ▸ hr
  obtain ⟨q, hq⟩ : ∃ q : Header → Bool,
      (b.realDeleted [r] dc).headers.rows = b.headers.rows.filter q := by
    simp only [realDeleted, realDelete, setSize, headers_removeAll]
    exact ⟨_, RowTable.rows_eraseAll _ _⟩
  rw [getContainerSize_true, hq, filter_filter]
  refine sum_filter_congr fun x hx => ?_
  rw [Bool.and_eq_left_iff_imp, decide_eq_true_eq]
  rintro ⟨a, ha, hc⟩
  have hmem := header_of_realDeleted hsub ha hx hc.symm
  rw [hq] at hmem
  exact (mem_filter.mp hmem).2

theorem mem_realDeleted_single (dc : Bool) :
    a ∈ (b.realDeleted [r] dc).aliases.rows ↔ a ∈ b.aliases.rows ∧ a ≠ r := by
  rw [aliases_realDeleted fun a ha => mem_singleton.mp ha ▸ hr, mem_singleton]

theorem referenced_realDeleted_of_shared (hlast : ¬ b.LastReference r) (dc : Bool) (id : Bytes) :
    (b.realDeleted [r] dc).Referenced id ↔ b.Referenced id := by
  constructor
  · rintro ⟨a, ha, hc⟩
    exact ⟨a, ((mem_realDeleted_single hr dc).mp ha).1, hc⟩
  · rintro ⟨a, ha, hc⟩
    by_cases he : a = r
    · obtain ⟨q, hq, hqc, hne⟩ := exists_other_reference hlast
      exact ⟨q, (mem_realDeleted_single hr dc).mpr ⟨hq, hne⟩, hqc.trans (he ▸ hc)⟩
    · exact ⟨a, (mem_realDeleted_single hr dc).mpr ⟨ha, he⟩, hc⟩

theorem referenced_realDeleted_of_last (hlast : b.LastReference r) (dc : Bool) (id : Bytes) :
    (b.realDeleted [r] dc).Referenced id ↔ b.Referenced id ∧ id ≠ r.contentId := by
  constructor
  · rintro ⟨a, ha, hc⟩
    obtain ⟨ham, hne⟩ := (mem_realDeleted_single hr dc).mp ha
    exact ⟨⟨a, ham, hc⟩, fun he => hne (hlast a ham (hc.trans he))⟩
  · rintro ⟨⟨a, ha, hc⟩, hne⟩
    refine ⟨a, (mem_realDeleted_single hr dc).mpr ⟨ha, fun he => hne ?_⟩, hc⟩
    rw [← hc, he]

end

theorem Sized.size_realDeleted_eq (hs : b.Sized) (hr : r ∈ b.aliases.rows) (dc : Bool) :
    (b.realDeleted [r] dc).size = (b.realDeleted [r] dc).getContainerSize true := by
  obtain ⟨x, hx, hi, hsz⟩ := hs.getAliasSize_eq hr
  rw [size_realDeleted hs hr, total_realDeleted hr, hs.size, getContainerSize_true]
  by_cases hlast : b.LastReference r
  · rw [if_pos ((lastReference_iff hr).mp hlast), hsz,
      ← sum_filter_ne hs.oneHeader hx (by simpa using ⟨r, hr, hi.symm⟩)]
    refine sum_filter_congr fun y _ => ?_
    rw [Bool.eq_iff_iff, Bool.and_eq_true, decide_eq_true_eq, decide_eq_true_eq,
      decide_eq_true_eq, referenced_realDeleted_of_last hr hlast, hi]
  · rw [if_neg fun hlen => hlast ((lastReference_iff hr).mpr hlen), Int.sub_zero]
    refine sum_filter_congr fun y _ => ?_
    rw [Bool.eq_iff_iff, decide_eq_true_eq, decide_eq_true_eq,
      referenced_realDeleted_of_shared hr hlast]

theorem Sized.realDeleted (hs : b.Sized) (hr : r ∈ b.aliases.rows) (dc : Bool) :
    (b.realDeleted [r] dc).Sized := by
  refine ⟨hs.size_realDeleted_eq hr dc, ?_, ?_, ?_, ?_⟩
  · intro a ha
    obtain ⟨h, hh, hi⟩ := hs.image a ((mem_realDeleted_single hr dc).mp ha).1
    have hsub : ∀ a ∈ [r], a ∈ b.aliases.rows := fun a ha => mem_singleton.mp ha ▸ hr
    exact ⟨h, header_of_realDeleted hsub ha hh hi, hi⟩
  · simp only [Base.realDeleted, realDelete, setSize, headers_removeAll, RowTable.rows_eraseAll]
    exact hs.oneHeader.sublist (filter_sublist.map _)
  · simp only [Base.realDeleted, realDelete, setSize, snapshots_removeAll, RowTable.rows_eraseAll,
      hs.noSnapshot, filter_nil]
  · intro a ha
    exact hs.versions a ((mem_realDeleted_single hr dc).mp ha).1

theorem Sized.deleteAlias (hs : b.Sized) {dc : Bool} {out : List Bean}
    (hok : b.deleteAlias m url dc now = .ok (b', out)) : b'.Sized := by
  obtain ⟨rows, x, hf, hlast, hcase⟩ := deleteAlias_eq_ok hok
  obtain ⟨r, rfl, hr, -, hlatest⟩ := findAliases_single hs.noSnapshot hf
  have hxr : x = r := mem_singleton.mp (lastManaged_mem hlast)
  subst hxr
  rcases hcase with ⟨-, rfl⟩ | ⟨-, hv, hmark⟩
  · exact hs.realDeleted hr dc
  -- 印は最新の行の次に書かれ、同じ content を指す
  obtain ⟨marker, hn, hver, hc, ha, hh, hsn, hz⟩ := markDeleted_eq_ok hmark
  have w : b.Aliased marker b' := ⟨ha, hh, hsn, hz⟩
  refine w.sized hs ⟨x, hr, hc.symm⟩ ?_ fun q hq hcl => ?_
  · have := hs.versions x hr
    omega
  obtain ⟨hqn, hqv⟩ := clash_alias.mp hcl
  exact absurd (hqv.symm.trans hver) (no_row_after_latestRow (hlatest hv) hq (hqn.symm.trans hn))

/-! ## purge -/

theorem Sized.purge (hs : b.Sized) (args : PurgeArgs) : (b.purge args).1.Sized := by
  cases hd : args.dryRun with
  | true =>
    rw [purge_dryRun hd]
    exact hs
  | false =>
    obtain ⟨b1, hfrom, ha, hh, -, -, hsn, hz⟩ := b.purge_rows hd
    -- purge の後に残る header はすべて参照されている
    have hall : (b.purge args).1.getContainerSize false =
        (b.purge args).1.getContainerSize true := by
      rw [getContainerSize_true]
      refine sum_filter_congr fun x hx => ?_
      rw [hh, RowTable.mem_delete] at hx
      have href : (b.purge args).1.Referenced x.id := by
        rw [Referenced, ha]
        simpa using hx.2
      simp [href]
    refine ⟨hz.trans hall, image_purge hs.image args, ?_, hsn ▸ hs.noSnapshot, ?_⟩
    · rw [hh]
      exact hs.oneHeader.sublist (filter_sublist.map _)
    intro a hma
    rw [ha] at hma
    obtain ⟨r, hr, -, -, hle⟩ := hfrom.origin a hma
    exact lt_of_lt_of_le (hs.versions r hr) hle

end Base

/-! ## run -/

open Base

variable {env : Env} {b b' : Base}

/-- 操作ごとの size の記録が合う条件 -/
def SizeKept (env : Env) (b : Base) (r : Request) : Prop :=
  match r.op with
  | .put url beans uid _ => b.PutKept r.maxVersions url beans uid
  | .append url beans uid uid' _ => b.AppendKept r.maxVersions url beans uid uid'
  | .copy url orig => b.CopyKept env r.maxVersions url orig
  | .force url beans uid _ => b.ForceKept env url beans uid
  | .delete .. => True
  | .updateHeader url beans _ uid => b.UpdateKept r.maxVersions url beans uid
  | .setProperties .. => False
  | .purge _ => True

theorem Base.Sized.incrementVersion (hs : b.Sized) : b.incrementVersion.Sized :=
  hs.of_eq rfl rfl rfl rfl

theorem sized_step {r : Request} (hs : b.Sized) (hk : SizeKept env b r)
    (h : step env b r = some b') : b'.Sized := by
  obtain ⟨m, op⟩ := r
  cases op with
  | put url beans uid now =>
    obtain ⟨⟨b1, out, v⟩, hok, rfl⟩ := okBase_eq_some h
    exact (hs.putAlias hk hok).incrementVersion
  | append url beans uid uid' now =>
    obtain ⟨⟨b1, out⟩, hok, rfl⟩ := okBase_eq_some h
    exact (hs.appendToAlias hk hok).incrementVersion
  | copy url orig =>
    obtain ⟨b1, hok, rfl⟩ := okBase_eq_some h
    exact (hs.copyAlias hk hok).incrementVersion
  | force url beans uid now =>
    obtain ⟨b1, hok, rfl⟩ := okBase_eq_some h
    exact (hs.forceAlias hk hok).incrementVersion
  | delete url dc now =>
    obtain ⟨⟨b1, out⟩, hok, rfl⟩ := okBase_eq_some h
    exact (hs.deleteAlias hok).incrementVersion
  | updateHeader url beans skip uid =>
    obtain ⟨res, hres, hok⟩ := Option.bind_eq_some_iff.mp h
    obtain ⟨b1, rfl, rfl⟩ := okBase_eq_some hok
    exact hs.updateAliasHeader hk hres
  | setProperties url beans => exact hk.elim
  | purge args =>
    cases h
    exact hs.purge args

/-- **container の size。** 空の container から条件を満たす操作をどう続けても、記録された size は alias が指す header の
size の合計に等しい。 -/
theorem size_eq_referenced (env : Env) (b : Base)
    (h : Reach (step env) (SizeKept env) Base.init b) : b.size = b.getContainerSize true :=
  (h.invariant (I := Base.Sized) sized_init fun hs hk hstep => sized_step hs hk hstep).size

/-! ### 記録が合う run と、合わない run -/

def copyPQ (m : Int) : Request :=
  ⟨m, .copy ⟨some (ascii "q"), none, none⟩ ⟨some (ascii "p"), none, none⟩⟩

def deleteP (m : Int) : Request := ⟨m, .delete ⟨some (ascii "p"), some (ascii "1"), none⟩ true 2⟩

/-- 写した後に元の version を消しても、記録は 3 のまま -/
theorem size_eq_referenced_copyRun : ∃ b, exec (step plainEnv) Base.init
    [putP 10 "k" 3 "u", copyPQ 10, deleteP 10] = some b ∧ b.size = 3 ∧
    b.size = b.getContainerSize true := by
  obtain ⟨b₁, b₂, b₃, h₁, h₂, h₃, hz⟩ : ∃ b₁ b₂ b₃,
      step plainEnv Base.init (putP 10 "k" 3 "u") = some b₁ ∧
      step plainEnv b₁ (copyPQ 10) = some b₂ ∧ step plainEnv b₂ (deleteP 10) = some b₃ ∧
      b₃.size = 3 := ⟨_, _, _, rfl, rfl, rfl, by decide +kernel⟩
  have hput : SizeKept plainEnv Base.init (putP 10 "k" 3 "u") := by
    refine ⟨⟨_, _, rfl, rfl, rfl, rfl⟩, ?_, ?_⟩
    · exact fun _ ha => (not_mem_nil ha).elim
    · rintro path latest - hl
      cases hl
  have hcopy : SizeKept plainEnv b₁ (copyPQ 10) := fun hsus => absurd hsus (by decide)
  refine ⟨b₃, by simp [exec, h₁, h₂, h₃], hz, ?_⟩
  exact size_eq_referenced plainEnv b₃
    (.tail (l := deleteP 10) (.tail (.tail .refl hput h₁) hcopy h₂) trivial h₃)

/-- あった alias への force は header を書かずに size を足す -/
theorem size_ne_referenced_force : ∃ b, exec (step plainEnv) Base.init
    [putP 10 "k" 1 "u", ⟨10, .force ⟨some (ascii "p"), none, none⟩ (chunkBeans "l" 4)
      (ascii "v") 2⟩] = some b ∧ b.size = 5 ∧ b.getContainerSize true = 1 := by
  refine ⟨_, rfl, by decide +kernel, by decide +kernel⟩

end Redcurrant.Meta2
