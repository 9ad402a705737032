import Redcurrant.Sqliterepo.Transaction

/-!
# slave は master と同じ version になるか

master と slave の判定は、`main.admi` で始まる 10 byte の名前で食い違う。
-/

namespace Redcurrant.Sqliterepo

open Infra Metautils Std List Hashstr Tnx RowsetTable

variable {S : Schema}

/-! ## 増やされる table -/

/-- `context_pending_inc_versions` が version を増やす table -/
def bumps (p : Hashstr × Subtree) : Prop :=
  0 < p.2.size ∧ strcaseeq p.1.s (ascii "main.admin") = false

instance (p : Hashstr × Subtree) : Decidable (bumps p) := inferInstanceAs (Decidable (_ ∧ _))

theorem foldl_bumps_getElem? (name : Bytes) : ∀ (l : List (Hashstr × Subtree)) (x : Sq3 S),
    l.Pairwise (fun p q => p.1.s ≠ q.1.s) →
    (l.foldl (fun x p => if bumps p then adminIncVersion x (versionPrefix ++ p.1.s) 1 else x)
      x).admin[versionPrefix ++ name]? =
      if ∃ p ∈ l, p.1.s = name ∧ bumps p then x.admin[versionPrefix ++ name]?.map (bumped 1)
      else x.admin[versionPrefix ++ name]?
  | [], x, _ => by simp
  | p :: l, x, hd => by
    obtain ⟨hne, hd⟩ := pairwise_cons.mp hd
    rw [foldl_cons, foldl_bumps_getElem? name l _ hd]
    by_cases hp : p.1.s = name ∧ bumps p
    · -- 残りの列に同じ名前は無い
      have hrest : ¬∃ q ∈ l, q.1.s = name ∧ bumps q :=
        fun ⟨q, hq, hqn, _⟩ => hne q hq (hp.1.trans hqn.symm)
      rw [if_neg hrest, if_pos hp.2, adminIncVersion_getElem?, if_pos (by rw [hp.1]),
        if_pos ⟨p, mem_cons_self, hp⟩]
    have hsame : (if bumps p then adminIncVersion x (versionPrefix ++ p.1.s) 1
        else x).admin[versionPrefix ++ name]? = x.admin[versionPrefix ++ name]? := by
      split
      · next hb =>
        rw [adminIncVersion_getElem?, if_neg]
        exact fun he => hp ⟨append_cancel_left he, hb⟩
      · rfl
    have hiff : (∃ q ∈ p :: l, q.1.s = name ∧ bumps q) ↔ ∃ q ∈ l, q.1.s = name ∧ bumps q := by
      simp [hp]
    rw [hsame]
    simp only [hiff]

/-- **version が増えるのは触れた table のうち admin table でないものである。** -/
theorem contextPendingIncVersions_getElem? {x : Sq3 S} (hn : x.ctx.pending.Named) (name : Bytes) :
    (contextPendingIncVersions x).admin[versionPrefix ++ name]? =
      if x.ctx.pending[create name]?.isSome ∧
          strcaseeq name (ascii "main.admin") = false then
        x.admin[versionPrefix ++ name]?.map (bumped 1)
      else x.admin[versionPrefix ++ name]? := by
  have hmem : ∀ p : Hashstr × Subtree, p ∈ x.ctx.pending.toList → x.ctx.pending[p.1]? = some p.2 :=
    fun p hp => ExtTreeMap.mem_toList_iff_getElem?_eq_some.mp hp
  have hpair : x.ctx.pending.toList.Pairwise (fun p q => p.1.s ≠ q.1.s) := by
    refine (pairwise_ne_toList _).imp_of_mem fun {p q} hp hq hne he => hne ?_
    rw [(hn _ _ (hmem p hp)).1, (hn _ _ (hmem q hq)).1, he]
  have hiff : (∃ p ∈ x.ctx.pending.toList, p.1.s = name ∧ bumps p) ↔
      x.ctx.pending[create name]?.isSome ∧ strcaseeq name (ascii "main.admin") = false := by
    constructor
    · rintro ⟨p, hp, rfl, -, hb⟩
      rw [← (hn _ _ (hmem p hp)).1, hmem p hp]
      exact ⟨rfl, hb⟩
    · rintro ⟨hs, hb⟩
      obtain ⟨rows, hrows⟩ := Option.isSome_iff_exists.mp hs
      exact ⟨(create name, rows), ExtTreeMap.mem_toList_iff_getElem?_eq_some.mpr hrows, rfl,
        (hn _ _ hrows).2, hb⟩
  refine (foldl_bumps_getElem? name _ x hpair).trans ?_
  simp only [hiff]

/-! ## 期待値との一致 -/

/-- master が増やした version を読んだもの -/
def bumpVersion (o : ObjectVersion) : ObjectVersion := ⟨toInt32 (o.version + 1), o.when⟩

/-- 触れた table の version が期待値に合う条件。admin table の判定が同じで、増やした version が 32 bit に収まる。 -/
def Countable (V : VersionTree) (y : Bytes) : Prop :=
  ∀ o, V[Hashstr.create y]? = some o → strcaseeq y (ascii "main.admin") = isAdminInDiff y ∧
    (isAdminInDiff y = false → o.version ≠ 2 ^ 31 - 1)

instance (V : VersionTree) (y : Bytes) : Decidable (Countable V y) :=
  inferInstanceAs (Decidable (∀ o ∈ V[Hashstr.create y]?, _))

section

variable {V V' : VersionTree} {names : List Bytes}

theorem versionExtractExpected_create (hnames : ∀ n ∈ names, printfLen n = create n) (y : Bytes) :
    (versionExtractExpected V names)[create y]? =
      if y ∈ names ∧ isAdminInDiff y = false then
        some ⟨(V[create y]?.getD initialVersion).version + 1, 0⟩
      else V[create y]? := by
  rw [versionExtractExpected_getElem?]
  refine if_congr ⟨?_, ?_⟩ rfl rfl
  · rintro ⟨n, hn, hd, he⟩
    rw [hnames n hn] at he
    rw [← create_inj he]
    exact ⟨hn, hd⟩
  · exact fun ⟨hn, hd⟩ => ⟨y, hn, hd, hnames y hn⟩

variable (hnames : ∀ n ∈ names, Hashstr.printfLen n = Hashstr.create n)
  (hbounds : ∀ (k : Hashstr) (o : ObjectVersion), V[k]? = some o →
    -2 ^ 31 ≤ o.version ∧ o.version < 2 ^ 31)
  (hV : ∀ y, V'[Hashstr.create y]? =
    if y ∈ names ∧ strcaseeq y (ascii "main.admin") = false then
      V[Hashstr.create y]?.map bumpVersion
    else V[Hashstr.create y]?)
include hnames hbounds hV

theorem version_eq_expected_iff {y : Bytes} {o : ObjectVersion} (hy : y ∈ names)
    (ho : V[create y]? = some o) :
    (∀ o' e, V'[create y]? = some o' →
        (versionExtractExpected V names)[create y]? = some e → o'.version = e.version) ↔
      strcaseeq y (ascii "main.admin") = isAdminInDiff y ∧
        (isAdminInDiff y = false → o.version ≠ 2 ^ 31 - 1) := by
  obtain ⟨hlo, hhi⟩ := hbounds _ _ ho
  rw [hV, versionExtractExpected_create hnames, ho]
  cases hs : strcaseeq y (ascii "main.admin") <;> cases hd : isAdminInDiff y
  · simpa [hy, bumpVersion] using toInt32_succ_eq_iff hlo hhi
  · simpa [hy, bumpVersion] using toInt32_succ_ne hlo hhi
  · simp [hy]
  · simp [hy]

/-- **触れた table の version だけが増えた木は、触れた table がどれも数えられるときに限り期待値に合う。** -/
theorem expected_iff
    (hkeys : ∀ (k : Hashstr) (o : ObjectVersion), V'[k]? = some o → ∃ y, k = create y) :
    Expected V V' names ↔ ∀ y ∈ names, Countable V y := by
  constructor
  · intro h y hy o ho
    exact (version_eq_expected_iff hnames hbounds hV hy ho).mp fun o' e ho' he => h _ o' e ho' he
  · intro h k o' e ho' he
    obtain ⟨y, rfl⟩ := hkeys k o' ho'
    by_cases hy : y ∈ names
    · obtain ⟨o, ho⟩ : ∃ o, V[create y]? = some o := by
        rw [← Option.isSome_iff_exists]
        have := hV y
        rw [ho'] at this
        split at this
        · cases ho : V[create y]? with
          | none => rw [ho] at this; cases this
          | some o => rfl
        · rw [← this]; rfl
      exact (version_eq_expected_iff hnames hbounds hV hy ho).mpr (h y hy o ho) o' e ho' he
    · rw [hV, if_neg fun h => hy h.1] at ho'
      rw [versionExtractExpected_create hnames, if_neg fun h => hy h.1, ho'] at he
      cases he
      rfl

end

theorem printfLen_of_check {name : Bytes} (h : tableNameCheck name = none) :
    printfLen name = create name := by
  have hgood : ∀ b ∈ name, badNameByte b = false := by
    unfold tableNameCheck at h
    split at h
    · cases h
    split at h
    · cases h
    · next hany => simpa using hany
  have hrange : ∀ b ∈ name, 32 ≤ b ∧ b ≤ 126 := by
    intro b hb
    have := hgood b hb
    simp only [badNameByte, Bool.or_eq_false_iff, Bool.not_eq_false', Bool.and_eq_true,
      decide_eq_true_eq] at this
    exact this.1.1.1.1.1
  refine printfLen_eq_create (fun h0 => ?_) fun b hb => ?_
  · exact absurd (hrange 0 h0).1 (by decide)
  · exact UInt8.lt_of_le_of_lt (hrange b hb).2 (by decide)

/-! ## version の行の一致 -/

/-- **version の行の同じ slave に、触れた行を正しく覚えた rowset を適用すると、version の行はまた同じ。** -/
theorem sameVersions_replicate {db0 db1 sdb db' : S.Db} {p : Pending} {calls : List Call}
    {env : SqlEnv} (hf : Follows db0 calls db1) (he : Exact calls p) (hn : p.Named)
    (hk : KeepsVersions db0 db1) (hs : SameVersions db0 sdb)
    (h : replicateNow env (contextPendingToRowset db1 p) sdb = (none, db')) :
    SameVersions db1 db' := by
  have hp := S.prepares_admin
  intro r a ha
  rw [replicateNow_rowset hn h]
  refine KeyedTable.applyDiff_agree (db0 adminName) (P := VersionRow) (fun q hq => ups_get? hp hq)
    (fun r hr _ => get?_of_mem_dels hf he hp hr) (fun _ _ => VersionRow.of_clash) hs ?_
    (fun r a _ h1 hu => get?_of_notMem_ups hf he hp h1 hu) r a ha
  intro r a ha h0 hd hu
  rcases hf.untouched _ _ (lastDeleted_of_notMem he hp hd hu) with h1 | h1
  · exact .inl (h1.trans h0)
  · exact .inr ⟨h1, hk r a ha h0⟩

/-! ## master の transaction -/

/-- version の管理を乱さない小さい transaction。文は version の行を変えず、触れた行は区別され、
admin table への書き込みは失敗しない。 -/
structure Tnx.Tracked (x : Sq3 S) (heap : Nat → Bytes) (t : Tnx S) : Prop where
  versions : SameVersions x.db t.sq3.db
  separated : Separated heap t.counted.ctx.log
  small : t.changed.1.ctx.huge = false
  written : t.changed.1.warned = false

section Tracked

variable {x : Sq3 S} {heap : Nat → Bytes} {t : Tnx S} {calls : List Call} {trunc : Nat}

theorem adminReload_of_sameVersions {y : Sq3 S} (hx : x.Opened) (hv : SameVersions x.db y.db) :
    adminReload y = { y with admin := adminLoadFromTable y.db } := by
  refine adminReload_eq fun tn htn => ?_
  rw [versionKey, ← hv.load_eq, ← hx.cached]
  exact hx.versioned tn htn

theorem sameVersions_of_exec {t₀ : Tnx S} {stmts : List Stmt} (hx : x.Opened)
    (hbegin : transactionBegin x (.ok true) heap = .ok t₀) (hexec : t₀.exec stmts = some t)
    (hn : ∀ stmt ∈ stmts, stmt.table ≠ ascii "admin") : SameVersions x.db t.sq3.db := by
  cases hbegin
  obtain ⟨y, hy, rfl⟩ := Option.map_eq_some_iff.mp hexec
  have hfresh : (x.fresh heap).Opened := ⟨hx.cached, hx.versioned⟩
  have hframe : y.db adminName = (adminReload (x.fresh heap)).db adminName :=
    execAll_frame hy fun stmt hs he => hn stmt hs (append_cancel_left he).symm
  rw [hfresh.adminReload_eq_self] at hframe
  intro r a _
  rw [hframe]
  rfl

theorem Tnx.exact_counted (hm : Moves (x.fresh heap) calls 0 t.counted)
    (hsep : Separated heap t.counted.ctx.log) : Exact calls t.counted.ctx.pending := by
  rw [hm.ctx, hooks_log calls _ rfl rfl] at hsep
  rw [hm.ctx]
  exact exact_of_separated hsep

theorem opened_of_sameVersions {y : Sq3 S} (hx : x.Opened) (hv : SameVersions x.db y.db) :
    (adminReload y).Opened := by
  rw [adminReload_of_sameVersions hx hv]
  refine ⟨rfl, fun tn htn => ?_⟩
  rw [versionKey, ← hv.load_eq, ← hx.cached]
  exact hx.versioned tn htn

theorem Tnx.opened_counted (hx : x.Opened) (hv : SameVersions x.db t.sq3.db)
    (hw : t.counted.warned = false) : t.counted.Opened ∧ KeepsVersions x.db t.counted.db := by
  obtain ⟨calls, hwr⟩ := writes_contextPendingIncVersions (adminReload t.sq3)
  refine ⟨hwr.opened (opened_of_sameVersions hx hv) hw, ?_⟩
  have hkeep := hwr.keeps
  rw [show (adminReload t.sq3).db = t.sq3.db by rw [adminReload_of_sameVersions hx hv]] at hkeep
  exact hv.keeps.trans hkeep

section

variable (hm : Moves (x.fresh heap) calls trunc t.sq3) (hsmall : t.changed.1.ctx.huge = false)
include hm hsmall

theorem Tnx.changed_counted :
    t.changed.1.warned = t.counted.warned ∧ t.changed.1.db = t.counted.db ∧
      t.changed.1.admin = t.counted.admin := by
  rw [(changed_small hm hsmall).2]
  exact ⟨rfl, rfl, rfl⟩

theorem Tnx.mem_names_iff (y : Bytes) :
    y ∈ t.changed.2.map name ↔ t.counted.ctx.pending[create y]?.isSome := by
  obtain ⟨rfl, heq⟩ := changed_small hm hsmall
  obtain ⟨calls', hm'⟩ := moves_counted hm
  rw [heq]
  constructor
  · intro hy
    obtain ⟨u, hu, rfl⟩ := mem_map.mp hy
    obtain ⟨k, rows, hk, rfl⟩ := mem_rowset hu
    rw [show (rowsetTable t.counted.db k.s rows).name = k.s from rfl,
      ← (named_fresh hm' k rows hk).1, hk]
    rfl
  · intro hs
    obtain ⟨rows, hrows⟩ := Option.isSome_iff_exists.mp hs
    refine mem_map.mpr ⟨rowsetTable t.counted.db y rows, ?_, rfl⟩
    exact mem_map.mpr ⟨(create y, rows), ExtTreeMap.mem_toList_iff_getElem?_eq_some.mpr hrows, rfl⟩

end

/-- 文の後に hook を呼ぶのは admin table への書き込みだけである -/
theorem Tnx.calls_counted (hm : Moves (x.fresh heap) calls trunc t.sq3) : t.sq3.ctx.log = calls ∧
    ∃ own, (∀ c ∈ own, c.fullName = adminName) ∧
      t.counted.ctx = (x.fresh heap).ctx.hooks (calls ++ own) := by
  obtain ⟨reload, hr⟩ := writes_adminReload t.sq3
  obtain ⟨bump, hb⟩ := writes_contextPendingIncVersions (adminReload t.sq3)
  have hr' : Moves t.sq3 reload 0 (adminReload t.sq3) :=
    ⟨hr.moves.ctx, hr.moves.total, hr.moves.follows⟩
  refine ⟨?_, reload ++ bump, fun c hc => (mem_append.mp hc).elim (hr.admin c) (hb.admin c), ?_⟩
  · rw [hm.ctx]
    exact hooks_log calls _ rfl rfl
  · rw [← append_assoc]
    exact ((hm.trans hr').trans hb.moves).ctx

/-- message の table は hook を呼んだ table と、version を書いた admin table -/
theorem Tnx.forall_tables_iff {P : RowsetTable → Prop}
    (hm : Moves (x.fresh heap) calls trunc t.sq3) (hsmall : t.changed.1.ctx.huge = false)
    (hadmin : P (tableRowset t.counted.db t.counted.ctx.pending adminName)) :
    (∀ u ∈ t.changed.2, P u) ↔
      ∀ c ∈ t.sq3.ctx.log, P (tableRowset t.counted.db t.counted.ctx.pending c.fullName) := by
  obtain ⟨hlog, own, hown, hctx⟩ := calls_counted hm
  rw [(changed_small hm hsmall).2, hlog]
  rw [hctx] at hadmin ⊢
  refine forall_rowset_iff.trans ⟨fun h c hc => h c (mem_append_left _ hc), fun h c hc => ?_⟩
  rcases mem_append.mp hc with hc | hc
  · exact h c hc
  · exact hown c hc ▸ hadmin

theorem writable_admin (db : S.Db) (rec : Rowid → Bool → Prop) : Writable db adminName rec :=
  ⟨by decide, S.prepares_admin, fun _ => S.replaces_admin⟩

/-- **送る table が文に書けるかは、文の呼んだ hook と最後の内容で決まる。** -/
theorem Tnx.fits_counted_iff (hm : Moves (x.fresh heap) calls trunc t.sq3)
    (hsep : Separated heap t.counted.ctx.log) (y : Bytes) :
    (tableRowset t.counted.db t.counted.ctx.pending y).Fits S ↔
      Writable t.counted.db y fun r d => lastDeleted t.sq3.ctx.log y r = some d := by
  rw [fits_tableRowset_iff]
  by_cases hy : y = adminName
  · subst hy
    exact iff_of_true (writable_admin _ _) (writable_admin _ _)
  obtain ⟨hlog, own, hown, hctx⟩ := calls_counted hm
  have hexact : Exact (calls ++ own) t.counted.ctx.pending := by
    rw [hctx, hooks_log (calls ++ own) _ rfl rfl] at hsep
    rw [hctx]
    exact exact_of_separated hsep
  have hlast : ∀ r, lastDeleted (calls ++ own) y r = lastDeleted calls y r := by
    intro r
    rw [lastDeleted_append, lastDeleted_of_forall_ne fun c hc he => hy (he.symm.trans (hown c hc))]
    rfl
  have hrec : t.counted.ctx.pending.Records y = fun r d => lastDeleted calls y r = some d := by
    funext r d
    rw [← hlast]
    exact propext hexact.records_iff
  rw [hrec, hlog]

/-- **transaction の後の version。** message が名指す、admin table でないものだけが増える。 -/
theorem Tnx.versions_counted (hx : x.Opened) (hm : Moves (x.fresh heap) calls trunc t.sq3)
    (hv : SameVersions x.db t.sq3.db) (hsmall : t.changed.1.ctx.huge = false) (y : Bytes) :
    (versionExtractFromAdmin t.counted)[create y]? =
      if y ∈ t.changed.2.map name ∧ strcaseeq y (ascii "main.admin") = false then
        (versionExtractFromAdmin x)[create y]?.map bumpVersion
      else (versionExtractFromAdmin x)[create y]? := by
  obtain ⟨c, hr⟩ := moves_adminReload t.sq3
  obtain ⟨c', hwr⟩ := writes_contextPendingIncVersions (adminReload t.sq3)
  have hmr := hm.trans hr
  -- 増やすときに触れるのは admin table だけ
  have hsame : (adminReload t.sq3).ctx.pending[create y]?.isSome ∧
      strcaseeq y (ascii "main.admin") = false ↔
      y ∈ t.changed.2.map name ∧ strcaseeq y (ascii "main.admin") = false := by
    refine and_congr_left fun hs => ?_
    rw [mem_names_iff hm hsmall, counted, hwr.moves.ctx,
      isSome_pending_hooks c' _ hmr.frame.1 hmr.frame.2.1]
    refine ⟨.inl, fun h => h.resolve_right ?_⟩
    rintro ⟨d, hd, he⟩
    rw [hwr.admin d hd] at he
    rw [← create_inj he] at hs
    exact absurd hs (by decide)
  have hold : (adminReload t.sq3).admin[versionPrefix ++ y]? = x.admin[versionPrefix ++ y]? := by
    rw [adminReload_of_sameVersions hx hv, hx.cached]
    exact (hv.load_eq y).symm
  simp only [versionExtractFromAdmin, versionExtractFromAdminTree_getElem?, counted]
  rw [contextPendingIncVersions_getElem? (named_fresh hmr), hold, if_congr hsame rfl rfl]
  split
  · cases hk : x.admin[versionPrefix ++ y]? with
    | none => rfl
    | some b => exact parseVersion_bumped b
  · rfl

end Tracked

/-! ## slave -/

/-- slave `s` の version の行は master `x` と同じ -/
structure InSync (x s : Sq3 S) : Prop where
  cached : s.Cached
  versions : SameVersions x.db s.db

section Slave

variable {x s : Sq3 S} {heap : Nat → Bytes} {t₀ t : Tnx S} {stmts : List Stmt} {env : SqlEnv}
variable {calls : List Call} {trunc : Nat} {db' : S.Db}

theorem InSync.vector_eq (h : InSync x s) (hx : x.Cached) :
    versionExtractFromAdmin s = versionExtractFromAdmin x := by
  refine versionExtractFromAdminTree_congr fun y => ?_
  rw [h.cached, hx]
  exact (h.versions.load_eq y).symm

section

variable (hs : InSync x s) (hx : x.Opened) (hm : Moves (x.fresh heap) calls trunc t.sq3)
  (ht : t.Tracked x heap)
include hs hx hm ht

/-- **rowset を適用できた slave は、読み直すと master と同じ version の行を持つ。** -/
theorem InSync.replicate (h : replicateNow env t.changed.2 s.db = (none, db')) :
    InSync t.counted (adminReload { s with db := db' }) ∧
      (adminReload { s with db := db' }).db = db' ∧ SameVersions t.counted.db db' := by
  obtain ⟨rfl, heq⟩ := changed_small hm ht.small
  obtain ⟨calls', hm'⟩ := moves_counted hm
  have hw : t.counted.warned = false := (changed_counted hm ht.small).1.symm.trans ht.written
  obtain ⟨hopen, hkeep⟩ := opened_counted hx ht.versions hw
  rw [heq] at h
  have hsame : SameVersions t.counted.db db' :=
    sameVersions_replicate (hm'.follows rfl) (exact_counted hm' ht.separated) (named_fresh hm')
      hkeep hs.versions h
  have hreload := adminReload_of_sameVersions (y := { s with db := db' }) hopen hsame
  rw [hreload]
  exact ⟨⟨rfl, hsame⟩, rfl, hsame⟩

omit hs hx hm ht in
theorem Tnx.fits_of_replicateNow {db : S.Db} (hm : Moves (x.fresh heap) calls trunc t.sq3)
    (hsmall : t.changed.1.ctx.huge = false) (h : replicateNow env t.changed.2 db = (none, db')) :
    ∀ u ∈ t.changed.2, u.Fits S := by
  obtain ⟨rfl, heq⟩ := changed_small hm hsmall
  obtain ⟨calls', hm'⟩ := moves_counted hm
  rw [heq] at h ⊢
  intro u hu
  exact ((replicateNow_ok _ h (rowset_pairwise (named_fresh hm') _)).1 u hu).1

theorem InSync.expected_iff (hnames : ∀ u ∈ t.changed.2, tableNameCheck u.name = none) :
    Expected (versionExtractFromAdmin s) (versionExtractFromAdmin t.counted)
        (t.changed.2.map name) ↔
      ∀ u ∈ t.changed.2, Countable (versionExtractFromAdmin x) u.name := by
  rw [hs.vector_eq hx.cached, Sqliterepo.expected_iff, forall_mem_map]
  · exact fun n hn => by
      obtain ⟨u, hu, rfl⟩ := mem_map.mp hn
      exact printfLen_of_check (hnames u hu)
  · exact fun k o hk => versions_bounds hk
  · exact versions_counted hx hm ht.versions ht.small
  · intro k o hk
    obtain ⟨y, -, -, he, -⟩ := versionExtractFromAdminTree_eq_some.mp hk
    exact ⟨y, he⟩

end

end Slave

/-! ## 具体的な slave -/

def admixSchema : Schema where
  tables := [ascii "admin", ascii "admix"]
  userKey _ row := row.head?.map ([·])
  prepares _ := true
  columns name := if name = adminName then [ascii "k", ascii "v"] else [ascii "k"]
  replaces _ _ := true
  realText _ := []
  prepares_of_replaces _ _ _ := rfl
  replaces_nil _ _ := rfl
  replaces_admin := rfl
  admin_mem := by simp

def admixBase : Sq3 admixSchema := storeBase admixSchema (ascii "admix") (ascii "1:0")

end Redcurrant.Sqliterepo
