import Redcurrant.Meta2.Delete
import Redcurrant.Meta2.Put

/-!
# append と header の更新

`m2db_append_to_alias` は位置をずらした新しい bean を加え、新しい content id で保存する。`m2db_update_alias_header` は
最新の行の bean を保存し直す。
-/

namespace Redcurrant.Meta2

open Infra Sqliterepo List

variable (env : Env)

/-! ## 前の bean -/

/-- `G_MININT64`。まだ値が無いことを表す。 -/
def minInt64 : Int := -2 ^ 63

/-- `struct append_context_s` のうち、前の bean から集めるもの -/
structure AppendContext where
  tmp : List Bean := []
  oldUid : Option Bytes := none
  md : Bytes := []
  policy : Bytes := []
  oldVersion : Int := minInt64
  oldCount : Int := minInt64
  oldSize : Int := minInt64
  fresh : Bool := false
  deriving DecidableEq

def keepOldBean (uid : Bytes) (ctx : AppendContext) : Bean → AppendContext
  | .contents c =>
    { ctx with
      tmp := ctx.tmp ++ [.contents { c with contentId := uid }]
      oldCount := max ctx.oldCount (strtoll c.position) }
  | .chunks c => { ctx with tmp := ctx.tmp ++ [.chunks c] }
  | .aliases a =>
    if ctx.oldVersion < a.version then
      { ctx with
        -- 削除済みの行には append せず、put をする
        oldVersion := if a.deleted then a.version - 1 else a.version
        fresh := ctx.fresh || a.deleted
        md := a.mdsys }
    else ctx
  | .contentsHeaders h =>
    { ctx with oldSize := h.size, policy := h.policy.getD ctx.policy, oldUid := some h.id }
  | _ => ctx

def keepOld (uid : Bytes) (old : List Bean) (ctx : AppendContext) : AppendContext :=
  old.foldl (keepOldBean uid) ctx

/-! ## 新しい bean -/

/-- `_increment_position`。番号の後ろは 127 byte までが残る。 -/
def incrementPosition (pos : Bytes) (inc : Int) : Bytes :=
  decInt (strtoll pos + inc) ++ ((strtollEnd pos).getD pos).take 127

/-- 番号を `inc` だけずらした、新しい content id の行 -/
def Content.shifted (uid : Bytes) (inc : Int) (c : Content) : Content :=
  { c with position := incrementPosition c.position inc, contentId := uid }

def appendAliasRow (uid : Bytes) (ctx : AppendContext) (containerVersion version : Int)
    (a : Alias) : Alias :=
  { a with containerVersion, version, contentId := uid, mdsys := ctx.md }

def appendHeaderRow (uid : Bytes) (ctx : AppendContext) (h : Header) : Header :=
  { h with
    size := h.size + ctx.oldSize
    id := uid
    policy := some ctx.policy
    hash := none }

/-- `_mangle_new_bean`。知らない種類の bean は捨てる。 -/
def mangleNewBean (uid : Bytes) (ctx : AppendContext) (containerVersion version : Int) :
    Bean → Option Bean
  | .aliases a => some (.aliases (appendAliasRow uid ctx containerVersion version a))
  | .contentsHeaders h => some (.contentsHeaders (appendHeaderRow uid ctx h))
  | .contents c =>
    some (.contents { c with
      position := incrementPosition c.position (if ctx.tmp.isEmpty then 0 else ctx.oldCount + 1)
      contentId := uid })
  | .chunks c => some (.chunks c)
  | _ => none

def AppendContext.version (ctx : AppendContext) (maxVersions : Int) : Int :=
  let old := if ctx.oldVersion = minInt64 then 0 else ctx.oldVersion
  if VersionsEnabled maxVersions then old + 1 else old

namespace Base

variable (b : Base)

def appendBeans (maxVersions : Int) (uid : Bytes) (ctx : AppendContext) (beans : List Bean) :
    List Bean :=
  ctx.tmp ++ beans.filterMap (mangleNewBean uid ctx (1 + b.version) (ctx.version maxVersions))

def deleteContentsById (id : Option Bytes) : Base :=
  match id with
  | some id => { b with contents := b.contents.delete (·.contentId = id) }
  | none => b

def appendOld (maxVersions : Int) (url : Url) (beans : List Bean) (uid : Bytes)
    (ctx : AppendContext) : Except GError (Base × List Bean) :=
  let all := b.appendBeans maxVersions uid ctx beans
  match env.checkPut url all with
  | some e => .error (invalidBeans e)
  | none =>
    let added := lastSize beans + if VersionsEnabled maxVersions then ctx.oldSize else 0
    let b' := (b.saveAll all).setSize (b.size + added)
    .ok (if VersionsDisabled maxVersions then b'.deleteContentsById ctx.oldUid else b', all)

/-- `m2db_append_to_alias`。`uid'` は put で引き直す乱数。 -/
def appendToAlias (maxVersions : Int) (url : Url) (beans : List Bean) (uid uid' : Bytes)
    (now : Int) : Except GError (Base × List Bean) :=
  let put := (b.putAlias env maxVersions url beans uid' now).map fun (b', out, _) => (b', out)
  match b.getAlias url { noprops := true } with
  | .error e =>
    if e.code = codeContentNotfound ∧ ¬ VersionsDisabled maxVersions then put else .error e
  | .ok old =>
    let ctx := keepOld uid old {}
    if ctx.fresh then put else b.appendOld env maxVersions url beans uid ctx

/-! ## header の更新 -/

def updateNewBean (uid : Bytes) (containerVersion version : Int) : Bean → Bean
  | .aliases a => .aliases { a with containerVersion, version, contentId := uid }
  | .contentsHeaders h => .contentsHeaders { h with id := uid }
  | .contents c => .contents { c with contentId := uid }
  | x => x

/-- `m2db_update_alias_header`。alias の無い URL では NULL の bean を読んで落ちる（`none`）。 -/
def updateAliasHeader (maxVersions : Int) (url : Url) (beans : List Bean) (skipChecks : Bool)
    (uid : Bytes) : Option (Except GError Base) :=
  match url.path with
  | none => some (.error ⟨codeBadRequest, "Missing path"⟩)
  | some path =>
    match if skipChecks then none else env.checkUpdate url beans with
    | some e => some (.error (invalidBeans e))
    | none =>
      (b.latestRow path).map fun latest =>
        let version := if VersionsEnabled maxVersions then latest.version + 1 else latest.version
        .ok (b.saveAll (beans.map (updateNewBean uid (1 + b.version) version)))

end Base

/-! ## 集めた値 -/

section

variable {uid : Bytes} {old : List Bean} {ctx : AppendContext}

theorem fresh_keepOld (h : ctx.fresh = true) : (keepOld uid old ctx).fresh = true := by
  induction old generalizing ctx with
  | nil => exact h
  | cons x old ih =>
    refine ih ?_
    cases x with
    | aliases a =>
      simp only [keepOldBean]
      split <;> simp [h]
    | _ => exact h

theorem deleted_of_fresh (h : (keepOld uid old ctx).fresh = true) :
    ctx.fresh = true ∨ ∃ a ∈ aliasesIn old, a.deleted = true := by
  induction old generalizing ctx with
  | nil => exact .inl h
  | cons x old ih =>
    rcases ih h with hx | ⟨a, ha, hd⟩
    · cases x with
      | aliases a =>
        simp only [keepOldBean] at hx
        split at hx
        · rcases Bool.or_eq_true_iff.mp hx with hx | hx
          · exact .inl hx
          · exact .inr ⟨a, mem_aliasesIn.mpr mem_cons_self, hx⟩
        · exact .inl hx
      | _ => exact .inl hx
    · exact .inr ⟨a, mem_aliasesIn.mpr (mem_cons_of_mem _ (mem_aliasesIn.mp ha)), hd⟩

theorem keepOldBean_alias {a : Alias} (h : (keepOldBean uid ctx (.aliases a)).fresh = false) :
    (ctx.oldVersion < a.version ∧ a.deleted = false ∧
        (keepOldBean uid ctx (.aliases a)).oldVersion = a.version) ∨
      (a.version ≤ ctx.oldVersion ∧ keepOldBean uid ctx (.aliases a) = ctx) := by
  by_cases hlt : ctx.oldVersion < a.version
  · have hlive : a.deleted = false := by
      simp only [keepOldBean, if_pos hlt, Bool.or_eq_false_iff] at h
      exact h.2
    exact .inl ⟨hlt, hlive, by simp [keepOldBean, hlt, hlive]⟩
  · exact .inr ⟨not_lt.mp hlt, by simp [keepOldBean, hlt]⟩

theorem keepOld_version (h : (keepOld uid old ctx).fresh = false) :
    ctx.oldVersion ≤ (keepOld uid old ctx).oldVersion ∧
      (∀ a ∈ aliasesIn old, a.version ≤ (keepOld uid old ctx).oldVersion) ∧
      ((keepOld uid old ctx).oldVersion = ctx.oldVersion ∨ ∃ a ∈ aliasesIn old, a.deleted = false ∧
          a.version = (keepOld uid old ctx).oldVersion) := by
  induction old generalizing ctx with
  | nil => exact ⟨le_rfl, by simp [aliasesIn], .inl rfl⟩
  | cons x old ih =>
    obtain ⟨hle, hall, hfrom⟩ := ih h
    cases x with
    | aliases a =>
      have haliases : aliasesIn (.aliases a :: old) = a :: aliasesIn old := rfl
      have hrun : keepOld uid (.aliases a :: old) ctx =
        keepOld uid old (keepOldBean uid ctx (.aliases a)) := rfl
      have hone : (keepOldBean uid ctx (.aliases a)).fresh = false := by
        by_contra hfresh
        rw [hrun, fresh_keepOld (Bool.not_eq_false _ ▸ hfresh)] at h
        cases h
      rw [hrun]
      rcases keepOldBean_alias hone with ⟨hlt, hlive, hv⟩ | ⟨hge, hv⟩
      · rw [hv] at hle hfrom
        refine ⟨(le_of_lt hlt).trans hle, forall_mem_cons.mpr ⟨hle, hall⟩, .inr ?_⟩
        rcases hfrom with he | ⟨r, hr, hrd, hrv⟩
        · exact ⟨a, mem_cons_self, hlive, he.symm⟩
        · exact ⟨r, mem_cons_of_mem _ hr, hrd, hrv⟩
      · rw [hv] at hle hfrom hall ⊢
        refine ⟨hle, forall_mem_cons.mpr ⟨hge.trans hle, hall⟩, ?_⟩
        rcases hfrom with he | ⟨r, hr, hrd⟩
        · exact .inl he
        · exact .inr ⟨r, mem_cons_of_mem _ hr, hrd⟩
    | _ => exact ⟨hle, hall, hfrom⟩

theorem keepOld_header : ((keepOld uid old ctx).oldSize, (keepOld uid old ctx).oldUid) =
    (headersIn old).foldl (fun _ h => (h.size, some h.id)) (ctx.oldSize, ctx.oldUid) :=
  Base.foldl_pick (v := fun c : AppendContext => (c.oldSize, c.oldUid)) fun ctx x => by
    cases x with
    | aliases a =>
      simp only [keepOldBean]
      split <;> rfl
    | _ => rfl

/-- 残す bean は新しい content id の content の行と、前の chunk -/
theorem mem_keepOld_tmp {x : Bean} : x ∈ (keepOld uid old ctx).tmp ↔
    x ∈ ctx.tmp ∨ (∃ c, .contents c ∈ old ∧ x = .contents { c with contentId := uid }) ∨
      ∃ k, .chunks k ∈ old ∧ x = .chunks k := by
  induction old generalizing ctx with
  | nil => simp [keepOld]
  | cons y old ih =>
    have hrun : keepOld uid (y :: old) ctx = keepOld uid old (keepOldBean uid ctx y) := rfl
    rw [hrun, ih]
    cases y with
    | aliases a =>
      have htmp : (keepOldBean uid ctx (.aliases a)).tmp = ctx.tmp := by
        simp only [keepOldBean]
        split <;> rfl
      simp [htmp]
    | _ => simp [keepOldBean, or_assoc, or_and_right, exists_or, or_left_comm]

end

/-! ## 成功した操作 -/

namespace Base

section

variable {env} {b b' : Base} {m now : Int} {url : Url} {beans : List Bean} {uid uid' : Bytes}

variable {old out : List Bean} {ctx : AppendContext}

theorem in_appendBeans (b : Base) (m : Int) (beans : List Bean) (hc : ctx = keepOld uid old {}) :
    aliasesIn (b.appendBeans m uid ctx beans) =
        (aliasesIn beans).map (appendAliasRow uid ctx (1 + b.version) (ctx.version m)) ∧
      headersIn (b.appendBeans m uid ctx beans) = (headersIn beans).map (appendHeaderRow uid ctx) ∧
      snapshotsIn (b.appendBeans m uid ctx beans) = [] := by
  have htmp : ∀ x ∈ ctx.tmp, x.alias? = none ∧ x.header? = none ∧ x.snapshot? = none := by
    subst hc
    intro x hx
    rcases mem_keepOld_tmp.mp hx with h | ⟨c, -, rfl⟩ | ⟨k, -, rfl⟩
    · cases h
    · exact ⟨rfl, rfl, rfl⟩
    · exact ⟨rfl, rfl, rfl⟩
  obtain ⟨ha, hh, hs⟩ := rows_eq_nil htmp
  refine ⟨?_, ?_, ?_⟩
  · rw [appendBeans, aliasesIn, filterMap_append, ← aliasesIn, ha]
    refine filterMap_rewrite (fun x => ?_) beans
    cases x <;> rfl
  · rw [appendBeans, headersIn, filterMap_append, ← headersIn, hh]
    refine filterMap_rewrite (fun x => ?_) beans
    cases x <;> rfl
  · rw [appendBeans, snapshotsIn, filterMap_append, ← snapshotsIn, hs, nil_append,
      filterMap_filterMap, filterMap_eq_nil_iff]
    intro x _
    cases x <;> rfl

theorem mem_contentsIn_appendBeans {c : Content} (hc : ctx = keepOld uid old {}) :
    c ∈ contentsIn (b.appendBeans m uid ctx beans) ↔
      (∃ o, .contents o ∈ old ∧ c = { o with contentId := uid }) ∨
        ∃ n ∈ contentsIn beans, c = n.shifted uid (if ctx.tmp.isEmpty then 0 else ctx.oldCount + 1) := by
  rw [mem_contentsIn, appendBeans, mem_append, mem_filterMap, hc, mem_keepOld_tmp]
  constructor
  · rintro ((h | ⟨o, ho, he⟩ | ⟨k, -, he⟩) | ⟨x, hx, he⟩)
    · cases h
    · cases he
      exact .inl ⟨o, ho, rfl⟩
    · cases he
    · cases x with
      | contents n =>
        cases he
        exact .inr ⟨n, mem_contentsIn.mpr hx, rfl⟩
      | _ => cases he
  · rintro (⟨o, ho, rfl⟩ | ⟨n, hn, rfl⟩)
    · exact .inl (.inr (.inl ⟨o, ho, rfl⟩))
    · exact .inr ⟨.contents n, mem_contentsIn.mp hn, rfl⟩

theorem mem_appendBeans (b : Base) (m : Int) (beans : List Bean) (hc : ctx = keepOld uid old {}) :
    (∀ c ∈ contentsIn (b.appendBeans m uid ctx beans), c.contentId = uid) ∧
      ∀ k ∈ chunksIn (b.appendBeans m uid ctx beans), .chunks k ∈ old ∨ k ∈ chunksIn beans := by
  constructor
  · intro c hcm
    rcases (mem_contentsIn_appendBeans hc).mp hcm with ⟨o, -, rfl⟩ | ⟨n, -, rfl⟩ <;> rfl
  · intro k hk
    subst hc
    rcases mem_append.mp (mem_chunksIn.mp hk) with h | h
    · rcases mem_keepOld_tmp.mp h with h | ⟨c, -, he⟩ | ⟨k', hk', he⟩
      · cases h
      · cases he
      · cases he
        exact .inl hk'
    obtain ⟨x, hxm, hx⟩ := mem_filterMap.mp h
    cases x with
    | chunks k' =>
      cases hx
      exact .inr (mem_chunksIn.mpr hxm)
    | _ => cases hx

structure Appended (b : Base) (m : Int) (beans : List Bean) (uid : Bytes) (ctx : AppendContext)
    (b' : Base) : Prop where
  aliases : b'.aliases = b.aliases.replaceAll
    ((aliasesIn beans).map (appendAliasRow uid ctx (1 + b.version) (ctx.version m)))
  headers : b'.headers = b.headers.replaceAll ((headersIn beans).map (appendHeaderRow uid ctx))
  snapshots : b'.snapshots = b.snapshots
  size : b'.size = b.size + (lastSize beans + if VersionsEnabled m then ctx.oldSize else 0)

theorem appended_appendOld (hc : ctx = keepOld uid old {})
    (h : b.appendOld env m url beans uid ctx = .ok (b', out)) : b.Appended m beans uid ctx b' := by
  obtain ⟨ha, hh, hs⟩ := in_appendBeans b m beans hc
  simp only [appendOld] at h
  split at h
  · cases h
  have hb : b'.aliases = b.aliases.replaceAll (aliasesIn (b.appendBeans m uid ctx beans)) ∧
      b'.headers = b.headers.replaceAll (headersIn (b.appendBeans m uid ctx beans)) ∧
      b'.snapshots = b.snapshots.replaceAll (snapshotsIn (b.appendBeans m uid ctx beans)) ∧
      b'.size = b.size + (lastSize beans + if VersionsEnabled m then ctx.oldSize else 0) := by
    cases h
    split
    · simp only [deleteContentsById]
      split <;> exact ⟨aliases_saveAll .., headers_saveAll .., snapshots_saveAll .., rfl⟩
    · exact ⟨aliases_saveAll .., headers_saveAll .., snapshots_saveAll .., rfl⟩
  rw [ha, hh, hs] at hb
  exact ⟨hb.1, hb.2.1, hb.2.2.1, hb.2.2.2⟩

/-- 成功した append は put になる（行が無いか削除済みのとき）か、見つけた行の bean につなげる -/
theorem appendToAlias_cases (h : b.appendToAlias env m url beans uid uid' now = .ok (b', out)) :
    ((∃ v, b.putAlias env m url beans uid' now = .ok (b', out, v)) ∧
      ((∃ e, b.findAliases url { noprops := true } = .error e) ∨
        ∃ rows, b.findAliases url { noprops := true } = .ok rows ∧ ∃ a ∈ rows, a.deleted = true)) ∨
      ∃ rows, b.findAliases url { noprops := true } = .ok rows ∧
        (keepOld uid (b.manageAll rows) {}).fresh = false ∧
        b.appendOld env m url beans uid (keepOld uid (b.manageAll rows) {}) = .ok (b', out) := by
  have hput : (b.putAlias env m url beans uid' now).map (fun (b', out, _) => (b', out)) =
      .ok (b', out) → ∃ v, b.putAlias env m url beans uid' now = .ok (b', out, v) := by
    intro hp
    cases hr : b.putAlias env m url beans uid' now with
    | error e => simp [hr, Except.map] at hp
    | ok r =>
      obtain ⟨b1, out1, v⟩ := r
      simp only [hr, Except.map, Except.ok.injEq, Prod.mk.injEq] at hp
      obtain ⟨rfl, rfl⟩ := hp
      exact ⟨v, rfl⟩
  simp only [appendToAlias, getAlias_noprops] at h
  cases hf : b.findAliases url { noprops := true } with
  | error e =>
    simp only [hf, Except.map] at h
    split at h
    · exact .inl ⟨hput h, .inl ⟨e, rfl⟩⟩
    · cases h
  | ok rows =>
    simp only [hf, Except.map] at h
    split at h
    · next hfresh =>
      obtain ⟨a, ha, hd⟩ := (deleted_of_fresh hfresh).resolve_left Bool.false_ne_true
      exact .inl ⟨hput h, .inr ⟨rows, rfl, a, mem_manageAll_aliases.mp (mem_aliasesIn.mp ha), hd⟩⟩
    · next hfresh => exact .inr ⟨rows, rfl, by simpa using hfresh, h⟩

/-! ### header の更新が書く行 -/

theorem aliasesIn_update (cv v : Int) : aliasesIn (beans.map (updateNewBean uid cv v)) =
    (aliasesIn beans).map fun a =>
      { a with containerVersion := cv, version := v, contentId := uid } := by
  refine filterMap_map_rewrite (fun x => ?_) beans
  cases x <;> rfl

theorem headersIn_update (cv v : Int) : headersIn (beans.map (updateNewBean uid cv v)) =
    (headersIn beans).map fun h => { h with id := uid } := by
  refine filterMap_map_rewrite (fun x => ?_) beans
  cases x <;> rfl

theorem snapshotsIn_update (cv v : Int) :
    snapshotsIn (beans.map (updateNewBean uid cv v)) = snapshotsIn beans := by
  refine (filterMap_map_rewrite (g := id) (fun x => ?_) beans).trans (map_id _)
  cases x <;> rfl

theorem updateAliasHeader_eq_ok {skip : Bool}
    (h : b.updateAliasHeader env m url beans skip uid = some (.ok b')) :
    ∃ path latest, url.path = some path ∧ b.latestRow path = some latest ∧
      b' = b.saveAll (beans.map (updateNewBean uid (1 + b.version)
        (if VersionsEnabled m then latest.version + 1 else latest.version))) := by
  simp only [updateAliasHeader] at h
  split at h
  · cases h
  rename_i path hp
  split at h
  · cases h
  · obtain ⟨latest, hl, he⟩ := Option.map_eq_some_iff.mp h
    exact ⟨path, latest, hp, hl, (Except.ok.inj he).symm⟩

end

end Base

end Redcurrant.Meta2
