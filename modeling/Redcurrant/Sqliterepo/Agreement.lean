import Redcurrant.Infra.Run
import Redcurrant.Sqliterepo.Sync

/-!
# master と slave の run

REPLICATE は失われうる。名指されない table の version が古くても受け入れられる（`accepted_with_old_version`）。
-/

namespace Redcurrant.Sqliterepo

open Infra Metautils Std Option Tnx Hashstr Bool

variable {S : Schema} {n : Nat}

/-! ## 定義 -/

/-- master と slave。`missed i` は slave `i` が食い違ったかもしれないことの、source に無い記録。 -/
structure Cluster (S : Schema) (n : Nat) where
  master : Sq3 S
  peers : Fin n → Sq3 S
  missed : Fin n → Bool

/-- master の transaction。`failure` は文の error。 -/
structure Round (n : Nat) where
  heap : Nat → Bytes
  stmts : List Stmt
  notify : Bool
  failure : GError
  net : Net n

/-- 文を実行し終えた transaction -/
def Round.tnx (l : Round n) (x : Sq3 S) : Option (Tnx S) :=
  ((startTnx x l.heap).exec l.stmts).map fun t =>
    if l.notify then transactionNotifyHugeChanges t else t

/-- REPLICATE を送る transaction か -/
def Tnx.sends (t : Tnx S) (net : Net n) : Bool :=
  !(t.changed.1.ctx.hollow || t.changed.1.ctx.huge || t.changed.2.isEmpty || net.getPeers.isSome)

/-- slave `i` が message を受け入れたか -/
def Tnx.accepted (t : Tnx S) (net : Net n) (peers : Fin n → Sq3 S) (i : Fin n) : Bool :=
  t.sends net && match net.fate i with
    | .refused _ => false
    | .handled env _ => (replicateBodyManage env (peers i) (some t.changed.2)).1.isNone

/-- transaction の後の `missed`。開いたままの slave、ROLLBACK になった変更を受け入れた slave、COMMIT された変更を受け
入れなかった slave は resync が届かなければ食い違う。 -/
def Cluster.missedAfter (c : Cluster S n) (mode : ElectionMode) (net : Net n) (t : Tnx S)
    (e : Ended S n) (i : Fin n) : Bool :=
  if e.master.any (·.saved.isSome) || (e.peers i).saved.isSome then true
  else if e.err.isSome then c.missed i || t.accepted net c.peers i
  else if (t.resyncTodo mode net c.peers).contains i ∧ net.dump.isNone ∧ net.restored i then false
  else if t.changed.1.ctx.huge = false ∧ t.changed.2 = [] then c.missed i
  else c.missed i || !t.accepted net c.peers i

def clusterStep (mode : ElectionMode) (c : Cluster S n) (l : Round n) : Option (Cluster S n) :=
  match l.tnx c.master with
  | none =>
    let e := transactionEnd mode l.net c.peers (some (startTnx c.master l.heap)) (some l.failure)
    e.master.map fun m => ⟨m, e.peers, c.missed⟩
  | some t =>
    let e := transactionEnd mode l.net c.peers (some t) none
    e.master.map fun m => ⟨m, e.peers, c.missedAfter mode l.net t e⟩

/-- version の管理を乱さない transaction。文は version の行を変えず、送るなら触れた行が区別され、admin table への
書き込みは失敗しない。 -/
structure Plain (c : Cluster S n) (l : Round n) : Prop where
  versions : ∀ t, l.tnx c.master = some t → SameVersions c.master.db t.sq3.db
  separated : ∀ t, l.tnx c.master = some t → t.changed.1.ctx.huge = false →
    Separated l.heap t.counted.ctx.log
  written : ∀ t, l.tnx c.master = some t → t.changed.1.warned = false

/-- master は開いていて、食い違ったことの無い slave の version の行は master と同じである。そのとき、transaction は開いた
ままでない。 -/
structure Cluster.Sound (c : Cluster S n) : Prop where
  opened : c.master.Opened
  saved : ∀ db, c.master.saved = some db → Versioned db
  synced : ∀ i, c.missed i = false → InSync c.master (c.peers i)
  closed : ∀ i, c.missed i = false → (c.peers i).saved = none ∧ c.master.saved = none

/-! ## transaction の前提 -/

variable {mode : ElectionMode} {c c' : Cluster S n} {l : Round n} {t : Tnx S} {i : Fin n}
variable {x s : Sq3 S} {net : Net n} {peers : Fin n → Sq3 S}

theorem Round.tnx_saved (h : l.tnx x = some t) : t.saved = x.saved.getD x.db := by
  obtain ⟨u, hu, rfl⟩ := map_eq_some_iff.mp h
  have hsaved := (moves_of_exec (transactionBegin_ok x l.heap) hu).1
  split <;> exact hsaved

theorem Round.tnx_small (h : l.tnx x = some t) (hsmall : t.changed.1.ctx.huge = false) :
    ∃ calls trunc, Moves (x.fresh l.heap) calls trunc t.sq3 := by
  obtain ⟨u, hu, rfl⟩ := map_eq_some_iff.mp h
  obtain ⟨-, calls, trunc, hm⟩ := moves_of_exec (transactionBegin_ok x l.heap) hu
  by_cases hn : l.notify = true
  · rw [if_pos hn] at hsmall
    obtain ⟨_, hr⟩ := moves_adminReload (transactionNotifyHugeChanges u).sq3
    rw [changed, (transactionChanges_frame _).2, hr.frame.2.1] at hsmall
    simp [transactionNotifyHugeChanges] at hsmall
  · rw [if_neg hn]
    exact ⟨calls, trunc, hm⟩

theorem Plain.tracked (hl : Plain c l) (ht : l.tnx c.master = some t)
    (hsmall : t.changed.1.ctx.huge = false) : t.Tracked c.master l.heap :=
  ⟨hl.versions t ht, hl.separated t ht hsmall, hsmall, hl.written t ht⟩

/-! ## master -/

theorem opened_transactionChanges {y : Sq3 S} (hy : y.Opened)
    (hw : (transactionChanges y).1.warned = false) : (transactionChanges y).1.Opened := by
  unfold transactionChanges at hw ⊢
  generalize (y.ctx.huge || y.total != y.ctx.changes) = huge at hw ⊢
  by_cases hc : y.ctx.hollow = false ∧ huge = false
  · rw [if_pos hc] at hw ⊢
    obtain ⟨calls, hwr⟩ := writes_contextPendingIncVersions
      { y with ctx := { y.ctx with huge := huge } }
    obtain ⟨hcached, hver⟩ := hwr.opened ⟨hy.cached, hy.versioned⟩ hw
    exact ⟨hcached, hver⟩
  · rw [if_neg hc] at hw ⊢
    obtain ⟨calls, hwr⟩ := writes_adminIncAllVersions
      (contextFlushPending { y with ctx := { y.ctx with huge := huge } }) 2
    exact hwr.opened ⟨hy.cached, hy.versioned⟩ hw

theorem Tnx.opened_changed (hx : x.Opened) (hv : SameVersions x.db t.sq3.db)
    (hw : t.changed.1.warned = false) : t.changed.1.Opened :=
  opened_transactionChanges (opened_of_sameVersions hx hv) hw

theorem Cluster.Sound.versioned_saved (h : c.Sound) : Versioned (c.master.saved.getD c.master.db) := by
  cases hs : c.master.saved with
  | none => exact h.opened.versioned_db
  | some db => exact h.saved db hs

theorem Tnx.opened_rollback (hs : Versioned t.saved) :
    t.rollback.Opened ∧ t.rollback.db = t.saved ∧ t.rollback.saved = none := by
  have hreload : t.rollback =
      { t.sq3 with db := t.saved, ctx := .idle, saved := none, admin := adminLoadFromTable t.saved } :=
    adminReload_eq hs
  rw [hreload]
  exact ⟨⟨rfl, hs⟩, rfl, rfl⟩

theorem Tnx.stuck_eq (h : t.changed.1.Opened) :
    t.stuck = { t.changed.1 with ctx := .idle, saved := some t.saved } :=
  Sq3.Opened.adminReload_eq_self
    (x := { t.changed.1 with ctx := .idle, saved := some t.saved }) ⟨h.cached, h.versioned⟩

/-! ## slave -/

theorem InSync.congr {x' : Sq3 S} (h : InSync x s) (hdb : x'.db = x.db) : InSync x' s :=
  ⟨h.cached, hdb ▸ h.versions⟩

theorem InSync.adminReload_eq_self (h : InSync x s) (hx : x.Opened) : adminReload s = s := by
  rw [adminReload_of_sameVersions hx h.versions, ← h.cached]

theorem inSync_restore (hx : x.Opened) (s : Sq3 S) :
    InSync x (adminReload { s with db := x.db, saved := none }) := by
  rw [adminReload_of_sameVersions (y := { s with db := x.db, saved := none }) hx (.refl _)]
  exact ⟨rfl, .refl _⟩

theorem Tnx.sent_eq (t : Tnx S) (net : Net n) (peers : Fin n → Sq3 S) (i : Fin n) :
    t.sent net peers i =
      if t.sends net then ((net.fate i).run (peers i) t.changed.2).2 else peers i := by
  unfold sent sendReplicate sends
  cases hcond : (t.changed.1.ctx.hollow || t.changed.1.ctx.huge || t.changed.2.isEmpty ||
    net.getPeers.isSome) <;> rfl

theorem Tnx.sent_of_accepted (h : t.accepted net peers i = true) :
    t.sends net = true ∧ ∃ env, replicateBodyManage env (peers i) (some t.changed.2) =
      (none, t.sent net peers i) := by
  obtain ⟨hsend, h⟩ := and_eq_true_iff.mp h
  refine ⟨hsend, ?_⟩
  rw [t.sent_eq, if_pos hsend]
  cases hf : net.fate i with
  | refused e => rw [hf] at h; cases h
  | handled env lost =>
    rw [hf] at h
    exact ⟨env, Prod.ext (isNone_iff_eq_none.mp h) rfl⟩

theorem Tnx.sends_spec (h : t.sends net = true) :
    t.changed.1.ctx.huge = false ∧ t.changed.2 ≠ [] := by
  simp only [sends, not_eq_true', or_eq_false_iff, List.isEmpty_eq_false_iff] at h
  exact ⟨h.1.1.2, h.1.2⟩

theorem Tnx.sent_of_not_accepted (h : t.accepted net peers i = false)
    (hbefore : (peers i).saved = none) (hafter : (t.sent net peers i).saved = none) :
    t.sent net peers i = peers i ∨ t.sent net peers i = adminReload (peers i) := by
  rw [t.sent_eq] at hafter ⊢
  by_cases hsend : t.sends net = true
  · rw [if_pos hsend] at hafter ⊢
    rw [accepted, hsend] at h
    have hne := (sends_spec hsend).2
    cases hf : net.fate i with
    | refused e => exact .inl rfl
    | handled env lost =>
      rw [hf] at h hafter
      dsimp only [Fate.run] at h hafter ⊢
      by_cases hlands : ∃ db, Lands env (peers i) t.changed.2 db
      · -- COMMIT が失敗すると、transaction は開いたままになる
        obtain ⟨db, hdb⟩ := hlands
        rw [replicateBodyManage_of_lands hne hdb] at h hafter
        cases hc : env.commit with
        | none => rw [hc] at h; cases h
        | some rc =>
          rw [hc] at hafter
          rw [reload_execBegin, adminReload_saved, Sq3.execBegin, hbefore] at hafter
          cases hafter
      · obtain ⟨e, he⟩ := replicateBodyManage_of_not_lands hne (not_exists.mp hlands)
        rw [he, execRollback_execBegin hbefore]
        exact .inr rfl
  · rw [if_neg hsend]
    exact .inl rfl

/-! ## run -/

section

variable (hc : c.Sound) (hl : Plain c l) (ht : l.tnx c.master = some t)
include hc hl ht

theorem inSync_of_accepted (hi : c.missed i = false) (ha : t.accepted l.net c.peers i = true) :
    InSync t.changed.1 (t.sent l.net c.peers i) := by
  obtain ⟨hsend, env, henv⟩ := sent_of_accepted ha
  obtain ⟨hsmall, hne⟩ := sends_spec hsend
  obtain ⟨calls, trunc, hm⟩ := Round.tnx_small ht hsmall
  obtain ⟨db, ⟨hdb, -⟩, hs⟩ := replicateBodyManage_ok hne henv
  have hsync : InSync c.master { c.peers i with saved := none } :=
    ⟨(hc.synced i hi).cached, (hc.synced i hi).versions⟩
  rw [hs]
  exact (hsync.replicate hc.opened hm (hl.tracked ht hsmall) hdb).1.congr
    (changed_counted hm hsmall).2.1

theorem inSync_of_empty (hi : c.missed i = false) (hsmall : t.changed.1.ctx.huge = false)
    (hnil : t.changed.2 = []) :
    InSync t.changed.1 (c.peers i) := by
  obtain ⟨calls, trunc, hm⟩ := Round.tnx_small ht hsmall
  have hdb : replicateNow .clean t.changed.2 (c.peers i).db = (none, (c.peers i).db) := by
    rw [hnil]
    rfl
  have h := (hc.synced i hi).replicate hc.opened hm (hl.tracked ht hsmall) hdb
  exact (InSync.mk (hc.synced i hi).cached h.2.2).congr (changed_counted hm hsmall).2.1

theorem inSync_commit (hopened : t.changed.1.Opened)
    (hi : (if i ∈ t.resyncTodo mode l.net c.peers ∧ l.net.dump.isNone ∧ l.net.restored i then false
      else if t.changed.1.ctx.huge = false ∧ t.changed.2 = [] then c.missed i
      else c.missed i || !t.accepted l.net c.peers i) = false) :
    InSync t.changed.1 (synchronousResync l.net (t.resyncTodo mode l.net c.peers)
      t.changed.1.db (t.sent l.net c.peers) i) := by
  rw [synchronousResync_eq]
  by_cases hr : i ∈ t.resyncTodo mode l.net c.peers ∧ l.net.dump.isNone ∧ l.net.restored i
  · rw [if_pos hr]
    exact inSync_restore hopened _
  rw [if_neg hr] at hi ⊢
  by_cases hnil : t.changed.1.ctx.huge = false ∧ t.changed.2 = []
  · rw [if_pos hnil] at hi
    have hsend : ¬t.sends l.net = true := fun h => (sends_spec h).2 hnil.2
    rw [t.sent_eq, if_neg hsend]
    exact inSync_of_empty hc hl ht hi hnil.1 hnil.2
  · rw [if_neg hnil, or_eq_false_iff, not_eq_false'] at hi
    exact inSync_of_accepted hc hl ht hi.1 hi.2

end

/-- **transaction は食い違いの記録の正しさを保つ。** -/
theorem clusterStep_sound (hc : c.Sound) (hl : Plain c l) (hs : clusterStep mode c l = some c') :
    c'.Sound := by
  unfold clusterStep at hs
  split at hs
  · -- 文が失敗した
    cases hs
    obtain ⟨hopened, hdb, hsaved⟩ :=
      opened_rollback (t := startTnx c.master l.heap) hc.versioned_saved
    refine ⟨hopened, fun db hdb' => (by cases hsaved.symm.trans hdb'), fun i hi => ?_,
      fun i hi => ⟨(hc.closed i hi).1, hsaved⟩⟩
    refine (hc.synced i hi).congr (hdb.trans ?_)
    rw [startTnx, (hc.closed i hi).2]
    rfl
  · next t ht =>
    have hopened := opened_changed hc.opened (hl.versions t ht) (hl.written t ht)
    have hsaved := Round.tnx_saved ht
    dsimp only [transactionEnd] at hs
    rcases t.commit_cases mode l.net c.peers with ⟨e, he⟩ | ⟨-, e, he⟩ | ⟨-, he⟩ <;>
      rw [he] at hs <;> cases hs
    · -- ROLLBACK
      obtain ⟨hroll, hdb, hnone⟩ := opened_rollback (t := t) (hsaved ▸ hc.versioned_saved)
      have hmissed : ∀ i, c.missedAfter mode l.net t
          ⟨some e, some t.rollback, t.sent l.net c.peers⟩ i = false →
          (t.sent l.net c.peers i).saved = none ∧ c.missed i = false ∧
            t.accepted l.net c.peers i = false := by
        intro i hi
        simpa [Cluster.missedAfter, hnone] using hi
      refine ⟨hroll, fun db hdb' => (by cases hnone.symm.trans hdb'), fun i hi => ?_,
        fun i hi => ⟨(hmissed i hi).1, hnone⟩⟩
      obtain ⟨hafter, hi, hacc⟩ := hmissed i hi
      have hsync := hc.synced i hi
      obtain ⟨hbefore, hmaster⟩ := hc.closed i hi
      have hback : t.rollback.db = c.master.db := by rw [hdb, hsaved, hmaster]; rfl
      rcases sent_of_not_accepted hacc hbefore hafter with h | h
      · exact (h ▸ hsync).congr hback
      · rw [hsync.adminReload_eq_self hc.opened] at h
        exact (h ▸ hsync).congr hback
    · -- COMMIT が失敗し、transaction は開いたまま
      rw [stuck_eq hopened]
      have hmissed : ∀ i, c.missedAfter mode l.net t ⟨some e,
          some { t.changed.1 with ctx := .idle, saved := some t.saved }, t.sent l.net c.peers⟩ i =
            true := fun i => by simp [Cluster.missedAfter]
      refine ⟨⟨hopened.cached, hopened.versioned⟩, fun db hdb => ?_, fun i hi => ?_, fun i hi => ?_⟩
      · cases hdb
        exact hsaved ▸ hc.versioned_saved
      · cases (hmissed i).symm.trans hi
      · cases (hmissed i).symm.trans hi
    · -- COMMIT
      refine ⟨⟨hopened.cached, hopened.versioned⟩, nofun, fun i hi => ?_, fun i hi => ?_⟩ <;>
        simp only [Cluster.missedAfter, any_some, isSome_none, Bool.false_or] at hi
      · split at hi
        · cases hi
        · simp only [Bool.false_eq_true, if_false, List.contains_iff_mem] at hi
          exact (inSync_commit hc hl ht hopened hi).congr rfl
      split at hi
      · cases hi
      · next hp => exact ⟨by simpa using hp, rfl⟩

/-! ## 受け入れた slave の version -/

/-- **message の名指す table の version は、slave の前の状態によらず master と同じになる。** -/
theorem Tnx.named_version {heap : Nat → Bytes} {calls : List Call} {trunc : Nat} {env : SqlEnv}
    {db' : S.Db} {y : Bytes} {o : ObjectVersion} (hx : x.Opened)
    (hm : Moves (x.fresh heap) calls trunc t.sq3) (ht : t.Tracked x heap)
    (h : replicateNow env t.changed.2 s.db = (none, db'))
    (hy : y ∈ t.changed.2.map RowsetTable.name) (hs : strcaseeq y (ascii "main.admin") = false)
    (ho : (versionExtractFromAdmin t.counted)[create y]? = some o) :
    (versionExtractFromAdmin (adminReload { s with db := db' }))[create y]? = some o := by
  have hbump := versions_counted hx hm ht.versions ht.small y
  rw [if_pos ⟨hy, hs⟩, ho] at hbump
  obtain ⟨rfl, heq⟩ := changed_small hm ht.small
  obtain ⟨calls', hm'⟩ := moves_counted hm
  have hw : t.counted.warned = false := (changed_counted hm ht.small).1.symm.trans ht.written
  rw [versionExtractFromAdmin, versionExtractFromAdminTree_getElem?,
    (opened_counted hx ht.versions hw).1.cached, bind_eq_some_iff] at ho
  obtain ⟨b, hb, hparse⟩ := ho
  obtain ⟨r, row, hget, hkv⟩ := adminLoadFromTable_eq_some.mp hb
  rw [versionExtractFromAdmin, versionExtractFromAdminTree_getElem?]
  by_cases hu : r ∈ (tableRowset t.counted.db t.counted.ctx.pending adminName).ups.map Prod.fst
  · rw [heq] at h
    have hrow : (db' adminName).get? r = some row := by
      rw [replicateNow_rowset (named_fresh hm') h,
        KeyedTable.get?_applyDiff _ (fun q hq => ups_get? S.prepares_admin hq), if_pos hu]
      exact hget
    rw [adminReload_getElem? (adminLoadFromTable_eq_some.mpr ⟨r, row, hrow, hkv⟩)]
    exact hparse
  exfalso
  have hold : (x.db adminName).get? r = some row :=
    get?_of_notMem_ups (hm'.follows rfl) (exact_counted hm' ht.separated) S.prepares_admin hget hu
  have hsame : (versionExtractFromAdmin x)[create y]? = some o := by
    rw [versionExtractFromAdmin, versionExtractFromAdminTree_getElem?, hx.cached,
      adminLoadFromTable_eq_some.mpr ⟨r, row, hold, hkv⟩]
    exact hparse
  obtain ⟨hlo, hhi⟩ := versions_bounds hsame
  rw [hsame, map_some, some.injEq] at hbump
  exact toInt32_succ_ne hlo hhi (congrArg ObjectVersion.version hbump).symm

/-- **どの REPLICATE が失われる run でも、受け入れた slave では名指された table の version が master と同じになり、ほか
は変わらない。食い違ったことの無い slave ではすべてが同じになる。** -/
theorem accepted_versions {init : Cluster S n} (hinit : init.Sound)
    (hreach : Reach (clusterStep mode) Plain init c) (hl : Plain c l) (ht : l.tnx c.master = some t)
    (ha : t.accepted l.net c.peers i = true) :
    (∀ y ∈ t.changed.2.map RowsetTable.name, strcaseeq y (ascii "main.admin") = false →
      ∀ o, (versionExtractFromAdmin t.changed.1)[Hashstr.create y]? = some o →
        (versionExtractFromAdmin (t.sent l.net c.peers i))[Hashstr.create y]? = some o) ∧
    (∀ y ∉ t.changed.2.map RowsetTable.name, ∀ o o',
      (versionExtractFromAdmin (c.peers i))[Hashstr.create y]? = some o →
      (versionExtractFromAdmin (t.sent l.net c.peers i))[Hashstr.create y]? = some o' →
        o'.version = o.version) ∧
    (c.missed i = false →
      versionExtractFromAdmin (t.sent l.net c.peers i) = versionExtractFromAdmin t.changed.1) := by
  have hc : c.Sound := hreach.invariant hinit fun hc hl hs => clusterStep_sound hc hl hs
  obtain ⟨hsend, env, henv⟩ := sent_of_accepted ha
  obtain ⟨hsmall, hne⟩ := sends_spec hsend
  obtain ⟨calls, trunc, hm⟩ := Round.tnx_small ht hsmall
  obtain ⟨db, ⟨hdb, hexp⟩, hs⟩ := replicateBodyManage_ok hne henv
  have htracked := hl.tracked ht hsmall
  have hadmin := (changed_counted hm hsmall).2.2
  have hvector : versionExtractFromAdmin (t.sent l.net c.peers i) =
      versionExtractFromAdmin (adminReload { c.peers i with db := db }) := by
    rw [hs, adminReload_saved { c.peers i with db := db }]
    rfl
  refine ⟨fun y hy hcase o ho => ?_, fun y hy o o' ho ho' => ?_, fun hi => ?_⟩
  · rw [hvector]
    rw [versionExtractFromAdmin, hadmin] at ho
    exact named_version hc.opened hm htracked hdb hy hcase ho
  · rw [hvector] at ho'
    refine hexp.unnamed (fun z hz he => hy ?_) ho ho'
    obtain ⟨u, hu, rfl⟩ := List.mem_map.mp hz
    rw [printfLen_of_check (fits_of_replicateNow hm hsmall hdb u hu).1] at he
    rw [← create_inj he]
    exact hz
  · refine (inSync_of_accepted hc hl ht hi ha).vector_eq ?_
    exact (opened_changed hc.opened (hl.versions t ht) (hl.written t ht)).cached

/-! ## 具体的な run -/

def pairSchema : Schema where
  tables := [ascii "admin", ascii "a", ascii "b"]
  userKey _ row := row.head?.map ([·])
  prepares _ := true
  columns name := if name = adminName then [ascii "k", ascii "v"] else [ascii "k"]
  replaces _ _ := true
  realText _ := []
  prepares_of_replaces _ _ _ := rfl
  replaces_nil _ _ := rfl
  replaces_admin := rfl
  admin_mem := by simp

def pairDb : pairSchema.Db :=
  Schema.Db.set (fun _ => KeyedTable.empty) adminName
    (((KeyedTable.empty.replaceInto 1 (adminRow (versionKey (ascii "admin")) (ascii "1:0"))).replaceInto 2
      (adminRow (versionKey (ascii "a")) (ascii "1:0"))).replaceInto 3
      (adminRow (versionKey (ascii "b")) (ascii "1:0")))

def pairBase : Sq3 pairSchema := ⟨pairDb, adminLoadFromTable pairDb, .idle, 0, false, none⟩

def pairCluster : Cluster pairSchema 2 := ⟨pairBase, fun _ => pairBase, fun _ => false⟩

def timeoutError : GError := ⟨500, "timeout"⟩

/-- table `a` に行を加える。REPLICATE は slave 0 に届かない。 -/
def lossyRound : Round 2 :=
  ⟨fun _ => [], insertStmts (ascii "a"), false, timeoutError, { openNet false with
      fate := fun i => if i.val = 0 then .refused timeoutError else .handled .clean none }⟩

/-- table `b` に行を加える。REPLICATE はどちらの slave にも届く。 -/
def fullRound : Round 2 :=
  ⟨fun _ => [], insertStmts (ascii "b"), false, timeoutError, openNet false⟩

theorem sound_pairCluster : pairCluster.Sound :=
  ⟨⟨rfl, by decide +kernel⟩, nofun, fun _ _ => ⟨rfl, .refl _⟩, fun _ _ => ⟨rfl, rfl⟩⟩

theorem plain_of_untouched (hc : c.Sound) (hn : ∀ stmt ∈ l.stmts, stmt.table ≠ ascii "admin")
    (hnotify : l.notify = false)
    (h : ∀ t, l.tnx c.master = some t →
      Separated l.heap t.counted.ctx.log ∧ t.changed.1.warned = false) : Plain c l := by
  refine ⟨fun t ht => ?_, fun t ht _ => (h t ht).1, fun t ht => (h t ht).2⟩
  obtain ⟨u, hu, rfl⟩ := map_eq_some_iff.mp ht
  rw [hnotify]
  exact sameVersions_of_exec hc.opened (transactionBegin_ok _ _) hu hn

/-- slave 0 が table `a` の変更を知らないまま、table `b` の変更を受け入れる run -/
theorem pairCluster_run : ∃ c t, Reach (clusterStep .quorum) Plain pairCluster c ∧ Plain c fullRound ∧
    fullRound.tnx c.master = some t ∧ c.missed 1 = false ∧
    t.accepted fullRound.net c.peers 0 = true ∧ t.accepted fullRound.net c.peers 1 = true ∧
    (versionExtractFromAdmin (t.sent fullRound.net c.peers 0))[create (ascii "main.a")]? =
      some ⟨1, 0⟩ ∧
    (versionExtractFromAdmin t.changed.1)[create (ascii "main.a")]? = some ⟨2, 0⟩ := by
  have hfirst : ∀ t ∈ lossyRound.tnx pairCluster.master,
      Separated lossyRound.heap t.counted.ctx.log ∧ t.changed.1.warned = false := by
    decide +kernel
  obtain ⟨c, hc, t, ht, ⟨hsep, hwarned⟩, hfacts⟩ :
      ∃ c ∈ clusterStep .quorum pairCluster lossyRound, ∃ t ∈ fullRound.tnx c.master,
        (Separated fullRound.heap t.counted.ctx.log ∧ t.changed.1.warned = false) ∧
        c.missed 1 = false ∧ t.accepted fullRound.net c.peers 0 = true ∧
        t.accepted fullRound.net c.peers 1 = true ∧
        (versionExtractFromAdmin (t.sent fullRound.net c.peers 0))[create (ascii "main.a")]? =
          some ⟨1, 0⟩ ∧
        (versionExtractFromAdmin t.changed.1)[create (ascii "main.a")]? = some ⟨2, 0⟩ := by
    decide +kernel
  have hplain : Plain pairCluster lossyRound :=
    plain_of_untouched sound_pairCluster (by decide) rfl hfirst
  refine ⟨c, t, .tail .refl hplain hc, ?_, ht, hfacts⟩
  refine plain_of_untouched (clusterStep_sound sound_pairCluster hplain hc) (by decide) rfl fun u hu => ?_
  rw [mem_def.mp ht, some.injEq] at hu
  exact hu ▸ ⟨hsep, hwarned⟩

/-- 受け入れただけでは version が同じとは限らない -/
theorem accepted_with_old_version : ¬∀ (c : Cluster pairSchema 2) (l : Round 2)
    (t : Tnx pairSchema) (i : Fin 2), Reach (clusterStep .quorum) Plain pairCluster c → Plain c l →
      l.tnx c.master = some t → t.accepted l.net c.peers i = true →
      versionExtractFromAdmin (t.sent l.net c.peers i) = versionExtractFromAdmin t.changed.1 := by
  intro h
  obtain ⟨c, t, hreach, hplain, ht, -, hzero, -, hslave, hmaster⟩ := pairCluster_run
  rw [h c fullRound t 0 hreach hplain ht hzero, hmaster] at hslave
  simp at hslave

/-- 食い違ったことの無い slave 1 は master の version をすべて持つ -/
theorem accepted_versions_pairCluster : ∃ (c : Cluster pairSchema 2) (t : Tnx pairSchema),
    Reach (clusterStep .quorum) Plain pairCluster c ∧ fullRound.tnx c.master = some t ∧
    t.accepted fullRound.net c.peers 1 = true ∧
    versionExtractFromAdmin (t.sent fullRound.net c.peers 1) = versionExtractFromAdmin t.changed.1 := by
  obtain ⟨c, t, hreach, hplain, ht, hmissed, -, hone, -, -⟩ := pairCluster_run
  exact ⟨c, t, hreach, ht, hone,
    (accepted_versions sound_pairCluster hreach hplain ht hone).2.2 hmissed⟩

end Redcurrant.Sqliterepo
