import Redcurrant.Infra.Run
import Redcurrant.Meta2.Append
import Redcurrant.Meta2.Purge

/-!
# 生きている version の保存

version を名指さない削除、put・append・copy・property の設定は生きている version に触れないはずである。
-/

namespace Redcurrant.Meta2

open Infra Sqliterepo Base Option List

/-! ## container への操作

操作は 1 つの transaction の中で行われ、失敗すれば base は元に戻る。 -/

/-- container への操作。乱数の content id と時刻は入力。 -/
inductive Op
  | put (url : Url) (beans : List Bean) (uid : Bytes) (now : Int)
  | append (url : Url) (beans : List Bean) (uid uid' : Bytes) (now : Int)
  | copy (url orig : Url)
  | force (url : Url) (beans : List Bean) (uid : Bytes) (now : Int)
  | delete (url : Url) (delChunks : Bool) (now : Int)
  | updateHeader (url : Url) (beans : List Bean) (skipChecks : Bool) (uid : Bytes)
  | setProperties (url : Url) (beans : List Bean)
  | purge (args : PurgeArgs)

/-- 操作と、そのときの `max_versions` -/
structure Request where
  maxVersions : Int
  op : Op

def okBase {α : Type} (r : Except GError α) (f : α → Base) : Option Base :=
  match r with
  | .ok x => some (f x)
  | .error _ => none

theorem okBase_eq_some {α : Type} {r : Except GError α} {f : α → Base} {b : Base}
    (h : okBase r f = some b) : ∃ x, r = .ok x ∧ b = f x := by
  cases r with
  | error e => cases h
  | ok x => exact ⟨x, rfl, (Option.some.inj h).symm⟩

/-- 成功した操作の 1 step。失敗した操作は無い。 -/
def step (env : Env) (b : Base) (r : Request) : Option Base :=
  match r.op with
  | .put url beans uid now =>
    okBase (b.putAlias env r.maxVersions url beans uid now) fun x => x.1.incrementVersion
  | .append url beans uid uid' now =>
    okBase (b.appendToAlias env r.maxVersions url beans uid uid' now) fun x => x.1.incrementVersion
  | .copy url orig => okBase (b.copyAlias env r.maxVersions url orig) incrementVersion
  | .force url beans uid now => okBase (b.forceAlias env url beans uid now) incrementVersion
  | .delete url delChunks now =>
    okBase (b.deleteAlias r.maxVersions url delChunks now) fun x => x.1.incrementVersion
  | .updateHeader url beans skipChecks uid =>
    (b.updateAliasHeader env r.maxVersions url beans skipChecks uid).bind (okBase · id)
  | .setProperties url beans => okBase (b.setProperties r.maxVersions url beans) incrementVersion
  | .purge args => some (b.purge args).1

variable {env : Env} {b b' : Base} {a : Alias} {m now : Int} {url : Url} {beans : List Bean}

/-- version を加えるだけのはずの操作 -/
def Additive (r : Request) : Prop :=
  VersionsEnabled r.maxVersions ∧ match r.op with
    | .put .. | .append .. | .copy .. | .setProperties .. => True
    | .delete url .. => url.version = none
    | _ => False

/-- その名前の version に、生きている行が無い -/
def NoLiveRow (b : Base) (name : Bytes) (version : Int) : Prop :=
  ∀ x ∈ b.aliases.rows, x.alias = name → x.version = version → x.deleted = true

/-- alias の bean はどれも URL の path の名前 -/
def NamedByUrl (url : Url) (beans : List Bean) : Prop :=
  ∀ a ∈ aliasesIn beans, url.path = some a.alias

/-- 操作の書く行が生きている行に重ならない条件 -/
def NextFree (b : Base) (r : Request) : Prop :=
  match r.op with
  | .put url beans _ _ => NamedByUrl url beans
  | .append url beans _ _ _ => NamedByUrl url beans ∧
      ∀ rows, b.findAliases url { noprops := true } = .ok rows → ∀ a ∈ rows, minInt64 < a.version ∧
          (a.deleted = false → NoLiveRow b a.alias (a.version + 1))
  | .delete url _ _ => ∀ rows, b.findAliases url { noprops := true } = .ok rows →
      ∀ a ∈ rows, NoLiveRow b a.alias (a.version + 1)
  | _ => True

variable {path uid : Bytes} {out : List Bean} {rows : List Alias}

theorem noLiveRow_after_latest {latest : Alias} (h : b.latestRow path = some latest) :
    NoLiveRow b path (latest.version + 1) := by
  intro x hx hn hv
  exact absurd hv (no_row_after_latestRow h hx hn)

/-! ## 1 step -/

theorem live_mem_replaceAll {xs : List Alias} (ha : a ∈ b.aliases.rows) (hl : a.deleted = false)
    (h : ∀ x ∈ xs, NoLiveRow b x.alias x.version) : a ∈ (b.aliases.replaceAll xs).rows := by
  refine RowTable.mem_replaceAll _ (.inr ha) fun x hx hc => ?_
  obtain ⟨hn, hv⟩ := clash_alias.mp hc
  rw [h x hx a ha hn.symm hv.symm] at hl
  cases hl

theorem live_mem_replaceInto {x : Alias} (ha : a ∈ b.aliases.rows) (hl : a.deleted = false)
    (h : NoLiveRow b x.alias x.version) : a ∈ (b.aliases.replaceInto x).rows :=
  have hx : ∀ y ∈ [x], NoLiveRow b y.alias y.version := fun _ hy => mem_singleton.mp hy ▸ h
  live_mem_replaceAll ha hl hx

section

variable (hm : VersionsEnabled m)
include hm

theorem noLiveRow_putVersion {size version size' : Int}
    (h : b.putVersion m path size = .ok (version, size')) : NoLiveRow b path (version + 1) := by
  rcases putVersion_eq_ok h with ⟨hnone, -, -⟩ |
    ⟨latest, hlatest, ⟨hv, -⟩ | ⟨hsus, -⟩ | ⟨-, hd, hv, -⟩⟩
  · intro x hx hn _
    exact absurd hn (no_row_of_latestRow_none hnone hx)
  · rw [hv]
    exact noLiveRow_after_latest hlatest
  · exact absurd hsus hm.not_suspended
  · -- 最新の行の印を上書きする
    intro x hx hn hxv
    obtain ⟨hlm, hln⟩ := latestRow_mem hlatest
    exact alias_unique hx hlm (hn.trans hln.symm) (hxv.trans hv) ▸ hd

theorem putAlias_keeps {v : Int} (hu : NamedByUrl url beans)
    (h : b.putAlias env m url beans uid now = .ok (b', out, v)) (ha : a ∈ b.aliases.rows)
    (hl : a.deleted = false) : a ∈ b'.aliases.rows := by
  obtain ⟨path, version, size, hp, hv, rfl⟩ := putAlias_eq_ok h
  simp only [realPutAlias, setSize, aliases_saveAll]
  refine live_mem_replaceAll ha hl fun x hx => ?_
  rw [aliasesIn_putBeans rfl, aliasesIn_patch] at hx
  obtain ⟨r, hr, rfl⟩ := mem_map.mp hx
  have hname : path = r.alias := some.inj (hp.symm.trans (hu r hr))
  subst hname
  exact noLiveRow_putVersion hm hv

theorem append_version (hmin : ∀ a ∈ rows, minInt64 < a.version)
    (hf : b.findAliases url { noprops := true } = .ok rows)
    (hfresh : (keepOld uid (b.manageAll rows) {}).fresh = false) :
    ∃ r ∈ rows, r.deleted = false ∧
      (keepOld uid (b.manageAll rows) {}).version m = r.version + 1 := by
  obtain ⟨-, hall, hfrom⟩ := keepOld_version hfresh
  have hrows : ∀ r, r ∈ aliasesIn (b.manageAll rows) ↔ r ∈ rows := fun r =>
    mem_aliasesIn.trans mem_manageAll_aliases
  obtain ⟨_, _, -, -, -, hne⟩ := findAliases_eq_ok rfl hf
  obtain ⟨r0, hr0⟩ := exists_mem_of_ne_nil rows hne
  -- 見つけた行の version は `G_MININT64` より大きいので、集めた version は行のもの
  have hold : (keepOld uid (b.manageAll rows) {}).oldVersion ≠ minInt64 := by
    have h1 := hmin r0 hr0
    have h2 := hall r0 ((hrows r0).mpr hr0)
    omega
  obtain ⟨r, hr, hrl, hrv⟩ := hfrom.resolve_left hold
  refine ⟨r, (hrows r).mp hr, hrl, ?_⟩
  simp only [AppendContext.version, if_neg hold, if_pos hm, hrv]

theorem appendToAlias_keeps {uid' : Bytes} (hu : NamedByUrl url beans)
    (hnext : ∀ rows, b.findAliases url { noprops := true } = .ok rows →
      ∀ a ∈ rows, minInt64 < a.version ∧ (a.deleted = false → NoLiveRow b a.alias (a.version + 1)))
    (h : b.appendToAlias env m url beans uid uid' now = .ok (b', out)) (ha : a ∈ b.aliases.rows)
    (hl : a.deleted = false) : a ∈ b'.aliases.rows := by
  rcases appendToAlias_cases h with ⟨⟨v, hput⟩, -⟩ | ⟨rows, hf, hfresh, happ⟩
  · exact putAlias_keeps hm hu hput ha hl
  obtain ⟨r, hr, hrl, hversion⟩ := append_version hm (fun a ha => (hnext rows hf a ha).1) hf hfresh
  rw [(appended_appendOld rfl happ).aliases]
  refine live_mem_replaceAll ha hl fun x hx => ?_
  obtain ⟨q, hq, rfl⟩ := mem_map.mp hx
  have hname : q.alias = r.alias := some.inj ((hu q hq).symm.trans (mem_findAliases rfl hf hr).2)
  simp only [appendAliasRow, hversion, hname]
  exact (hnext rows hf r hr).2 hrl

theorem copyAlias_keeps {orig : Url} (h : b.copyAlias env m url orig = .ok b')
    (ha : a ∈ b.aliases.rows) (hl : a.deleted = false) :
    a ∈ b'.aliases.rows := by
  obtain ⟨path, src, version, -, -, hv, rfl⟩ := copyAlias_eq_ok h
  have hfree : NoLiveRow b path version := by
    rcases copyVersion_eq_ok hv with ⟨hnone, -⟩ | ⟨dst, hdst, ⟨-, rfl⟩ | ⟨hsus, -⟩⟩
    · intro x hx hn _
      exact absurd hn (no_row_of_latestRow_none hnone hx)
    · exact noLiveRow_after_latest hdst
    · exact absurd hsus hm.not_suspended
  exact live_mem_replaceInto ha hl hfree

theorem setProperties_keeps (h : b.setProperties m url beans = .ok b') (ha : a ∈ b.aliases.rows)
    (hl : a.deleted = false) : a ∈ b'.aliases.rows := by
  obtain ⟨latest, -, hlatest, -, rfl⟩ := setProperties_eq_save hm h
  rw [aliases_setProperty]
  exact live_mem_replaceInto ha hl (noLiveRow_after_latest hlatest)

theorem deletesReally_single {x : Alias} (hv : url.version = none)
    (hf : b.findAliases url { noprops := true } = .ok rows) (hx : x ∈ rows)
    (hd : b.deletesReally m url x = true) :
    rows = [x] ∧ x.deleted = true ∧ b.isInASnapshot x = false := by
  simp only [deletesReally, hm.not_disabled, hm.not_suspended, decide_false, Bool.false_or, hv,
    isSome_none, Bool.and_eq_true, Bool.not_eq_true'] at hd
  obtain ⟨path, c, -, hc, rfl, -⟩ := findAliases_eq_ok rfl hf
  refine ⟨?_, hd⟩
  cases hs : url.snapshot with
  | none =>
    simp only [buildClause, hs, hv, Except.ok.injEq] at hc
    subst hc
    have hl : b.latestRow path = some x := mem_toList.mp hx
    simp [selectRows, hl]
  | some name =>
    -- snapshot で選んだ行は本当には消えない
    simp only [buildClause, hs, Except.map] at hc
    cases hg : b.getSnapshotByName name with
    | error e => simp [hg] at hc
    | ok s =>
      simp only [hg, Except.ok.injEq] at hc
      subst hc
      have hcv : x.containerVersion = s.version := by
        simpa using (mem_filter.mp hx).2
      rw [isInASnapshot_of_mem (getSnapshotByName_mem hg) hcv] at hd
      cases hd.2

theorem deleteAlias_keeps {dc : Bool} (hv : url.version = none)
    (hnext : ∀ rows, b.findAliases url { noprops := true } = .ok rows →
      ∀ a ∈ rows, NoLiveRow b a.alias (a.version + 1))
    (h : b.deleteAlias m url dc now = .ok (b', out)) (ha : a ∈ b.aliases.rows)
    (hl : a.deleted = false) : a ∈ b'.aliases.rows := by
  obtain ⟨rows, x, hf, hlast, hcase⟩ := deleteAlias_eq_ok h
  have hx := lastManaged_mem hlast
  rcases hcase with ⟨hd, rfl⟩ | ⟨-, -, hmark⟩
  · refine (aliases_realDeleted fun r hr => (mem_findAliases rfl hf hr).1).mpr ⟨ha, fun har => ?_⟩
    obtain ⟨rfl, hdel, -⟩ := deletesReally_single hm hv hf hx hd
    rw [mem_singleton.mp har, hdel] at hl
    cases hl
  obtain ⟨marker, hn, hver, -, he, -⟩ := markDeleted_eq_ok hmark
  rw [he]
  refine live_mem_replaceInto ha hl ?_
  rw [hn, hver]
  exact hnext rows hf x hx

end

theorem step_keeps_live {r : Request} (hadd : Additive r) (hnext : NextFree b r)
    (h : step env b r = some b') (ha : a ∈ b.aliases.rows) (hl : a.deleted = false) :
    a ∈ b'.aliases.rows := by
  obtain ⟨m, op⟩ := r
  obtain ⟨hm, hop⟩ := hadd
  cases op with
  | put url beans uid now =>
    obtain ⟨⟨b1, out, v⟩, hok, rfl⟩ := okBase_eq_some h
    show a ∈ b1.aliases.rows
    exact putAlias_keeps hm hnext hok ha hl
  | append url beans uid uid' now =>
    obtain ⟨⟨b1, out⟩, hok, rfl⟩ := okBase_eq_some h
    show a ∈ b1.aliases.rows
    exact appendToAlias_keeps hm hnext.1 hnext.2 hok ha hl
  | copy url orig =>
    obtain ⟨b1, hok, rfl⟩ := okBase_eq_some h
    show a ∈ b1.aliases.rows
    exact copyAlias_keeps hm hok ha hl
  | delete url dc now =>
    obtain ⟨⟨b1, out⟩, hok, rfl⟩ := okBase_eq_some h
    show a ∈ b1.aliases.rows
    exact deleteAlias_keeps hm hop hnext hok ha hl
  | setProperties url beans =>
    obtain ⟨b1, hok, rfl⟩ := okBase_eq_some h
    show a ∈ b1.aliases.rows
    exact setProperties_keeps hm hok ha hl
  | force url beans uid now | updateHeader url beans skip uid | purge args => exact hop.elim

/-! ## run -/

/-- **生きている version の保存。** version を扱う container で条件を満たす操作を続けても、生きている行は残る。 -/
theorem live_versions_kept (env : Env) (b b' : Base)
    (h : Reach (step env) (fun b r => Additive r ∧ NextFree b r) b b') (a : Alias)
    (ha : a ∈ b.aliases.rows) (hl : a.deleted = false) : a ∈ b'.aliases.rows := by
  refine h.invariant (I := fun s => a ∈ s.aliases.rows) ha ?_
  intro s s' r hs hok hstep
  exact step_keeps_live hok.1 hok.2 hstep hs hl

theorem latestRow_of_found (hv : url.version = none) (hs : url.snapshot = none)
    (hf : b.findAliases url { noprops := true } = .ok rows) (ha : a ∈ rows) :
    b.latestRow a.alias = some a := by
  obtain ⟨path, c, -, hc, rfl, -⟩ := findAliases_eq_ok rfl hf
  simp only [buildClause, hs, hv, Except.ok.injEq] at hc
  subst hc
  have hlatest : b.latestRow path = some a := mem_toList.mp ha
  exact (latestRow_mem hlatest).2 ▸ hlatest

/-! ### 古い version への append -/

def plainEnv : Env where
  checkPut := fun _ _ => none
  checkUpdate := fun _ _ => none
  patchMetadata := fun _ md => md
  containerPolicy := none
  numericText := fun s => if strtollEnd s = some [] then some (strtoll s) else none

/-- `p` に 1 つの chunk を持つ content の bean -/
def chunkBeans (chunk : String) (size : Int) : List Bean :=
  [.aliases ⟨ascii "p", 0, 0, [], [], 0, false⟩, .contentsHeaders ⟨[], none, none, size⟩,
    .contents ⟨[], ascii chunk, ascii "0"⟩, .chunks ⟨ascii chunk, [], size, 0⟩]

theorem namedByUrl_chunkBeans (chunk : String) (size : Int) :
    NamedByUrl ⟨some (ascii "p"), none, none⟩ (chunkBeans chunk size) := by
  intro a ha
  simp only [chunkBeans, aliasesIn, Bean.alias?, filterMap_cons, filterMap_nil, mem_singleton] at ha
  rw [ha]

def putP (m : Int) (chunk : String) (size : Int) (uid : String) : Request :=
  ⟨m, .put ⟨some (ascii "p"), none, none⟩ (chunkBeans chunk size) (ascii uid) 1⟩

/-- 2 度目の put の後も、version 1 は残る -/
theorem live_versions_kept_putTwice : ∃ b b', step plainEnv Base.init (putP 10 "k" 1 "u") = some b ∧
    step plainEnv b (putP 10 "l" 2 "v") = some b' ∧
    (⟨ascii "p", 1, 1, ascii "u", [], 1, false⟩ : Alias) ∈ b'.aliases.rows := by
  obtain ⟨b, b', h, h', ha⟩ : ∃ b b', step plainEnv Base.init (putP 10 "k" 1 "u") = some b ∧
      step plainEnv b (putP 10 "l" 2 "v") = some b' ∧
      (⟨ascii "p", 1, 1, ascii "u", [], 1, false⟩ : Alias) ∈ b.aliases.rows :=
    ⟨_, _, rfl, rfl, by decide +kernel⟩
  exact ⟨b, b', h, h', live_versions_kept plainEnv b b'
    (.tail (l := putP 10 "l" 2 "v") .refl ⟨⟨.inl (by decide), trivial⟩, namedByUrl_chunkBeans "l" 2⟩ h') _ ha rfl⟩

/-- version 1 を名指して append すると、version 2 が上書きされる -/
theorem append_overwrites_live : ∃ b b', exec (step plainEnv) Base.init
      [putP 10 "k" 1 "u", putP 10 "l" 2 "v"] = some b ∧
    step plainEnv b ⟨10, .append ⟨some (ascii "p"), some (ascii "1"), none⟩
      (chunkBeans "n" 4) (ascii "w") (ascii "w2") 1⟩ = some b' ∧
    (⟨ascii "p", 2, 2, ascii "v", [], 1, false⟩ : Alias) ∈ b.aliases.rows ∧
    ∀ x ∈ b'.aliases.rows, x.alias = ascii "p" → x.version = 2 → x.contentId ≠ ascii "v" := by
  refine ⟨_, _, rfl, rfl, by decide +kernel, by decide +kernel⟩

end Redcurrant.Meta2
