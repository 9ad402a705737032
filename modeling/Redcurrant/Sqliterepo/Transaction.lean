import Mathlib.Data.Fintype.Card
import Redcurrant.Sqliterepo.Dispatcher

/-!
# 複製される transaction

master は version を増やし、rowset を作って COMMIT する。hook が peer に送り、返事が足りなければ拒む。
version の食い違う peer も成功に数え、後で base の全体を送り直す。
-/

namespace Redcurrant.Sqliterepo

open Infra Metautils Std Option List

variable {S : Schema} {n : Nat}

/-! ## 変更の集計 -/

def contextFlushPending (sq3 : Sq3 S) : Sq3 S := { sq3 with ctx := { sq3.ctx with pending := ∅ } }

def contextPendingIncVersions (sq3 : Sq3 S) : Sq3 S :=
  sq3.ctx.pending.toList.foldl (fun sq3 p =>
      if 0 < p.2.size ∧ strcaseeq p.1.s (ascii "main.admin") = false then
        adminIncVersion sq3 (versionPrefix ++ p.1.s) 1
      else sq3)
    sq3

/-- `sqlx_transaction_changes`。hook の数が SQLite の数と違えば、全体を送る。 -/
def transactionChanges (sq3 : Sq3 S) : Sq3 S × List RowsetTable :=
  let huge := sq3.ctx.huge || sq3.total != sq3.ctx.changes
  let sq3 := { sq3 with ctx := { sq3.ctx with huge := huge } }
  if sq3.ctx.hollow = false ∧ huge = false then
    let sq3 := contextPendingIncVersions sq3
    (contextFlushPending sq3, contextPendingToRowset sq3.db sq3.ctx.pending)
  else (adminIncAllVersions (contextFlushPending sq3) 2, [])

/-! ## peer と通信 -/

/-- 一つの peer への REPLICATE の結末。届かないか断られれば `refused`、扱われれば `handled` で、返事が届かなければ `lost`
が error になる。 -/
inductive Fate
  | refused (e : GError)
  | handled (env : SqlEnv) (lost : Option GError)

/-- client の見る error と、その後の peer -/
def Fate.run (f : Fate) (peer : Sq3 S) (seq : List RowsetTable) : Option GError × Sq3 S :=
  match f with
  | .refused e => (some e, peer)
  | .handled env lost =>
    let (err, peer) := replicateBodyManage env peer (some seq)
    (lost.or err, peer)

/-- transaction の終わりに起こること。`getPeers`、`loop`、`dump` は error、`sql` は master の SQLite、`restored` は
RESTORE の届いた peer。 -/
structure Net (n : Nat) where
  (getPeers loop : Option GError)
  fate : Fin n → Fate
  sql : SqlEnv
  dump : Option GError
  restored : Fin n → Bool

inductive ElectionMode
  | none | quorum | group
  deriving DecidableEq

def groupToQuorum (groupSize : Nat) : Nat := 1 + groupSize / 2

/-- version の食い違いを知らせる error -/
def isConflict (e : GError) : Bool :=
  e.code == codePipefrom || e.code == codePipeto || e.code == codeConcurrent

def Net.reply (net : Net n) (seq : List RowsetTable) (peers : Fin n → Sq3 S) (i : Fin n) :
    Option GError := ((net.fate i).run (peers i) seq).1

/-- `_replicate_on_peers`。error と、後で resync する peer を返す。 -/
def replicateOnPeers (mode : ElectionMode) (net : Net n) (seq : List RowsetTable)
    (peers : Fin n → Sq3 S) : Option GError × List (Fin n) :=
  match net.loop with
  | some e => (some e, [])
  | none =>
    let resyncTodo := (finRange n).filter fun i => (net.reply seq peers i).any isConflict
    let success := (finRange n).countP (fun i => (net.reply seq peers i).all isConflict) + 1
    let groupSize := 1 + n
    if mode = .group then
      (if success < groupSize then some ⟨500, "Not enough successes, no group"⟩ else none, resyncTodo)
    else
      (if success < groupToQuorum groupSize then some ⟨500, "Not enough successes, no quorum"⟩
        else none, resyncTodo)

def performReplicate (mode : ElectionMode) (net : Net n) (seq : List RowsetTable)
    (peers : Fin n → Sq3 S) : Bool × List (Fin n) :=
  match net.getPeers with
  | some _ => (false, [])
  | none =>
    if n = 0 then (true, [])
    else
      let (err, resyncTodo) := replicateOnPeers mode net seq peers
      (err.isNone, resyncTodo)

/-- `hook_commit`。COMMIT を通すかと、resync する peer。複製の無い base では hook が登録されていない。 -/
def hookCommit (mode : ElectionMode) (net : Net n) (ctx : Repctx) (seq : List RowsetTable)
    (peers : Fin n → Sq3 S) : Bool × List (Fin n) :=
  if ctx.hollow then (true, [])
  else if ctx.huge then (true, if net.getPeers.isSome then [] else finRange n)
  else if seq = [] then (true, [])
  else performReplicate mode net seq peers

/-- COMMIT の hook が送った REPLICATE の後の peer -/
def sendReplicate (net : Net n) (ctx : Repctx) (seq : List RowsetTable) (peers : Fin n → Sq3 S) :
    Fin n → Sq3 S :=
  if ctx.hollow || ctx.huge || seq.isEmpty || net.getPeers.isSome then peers
  else fun i => ((net.fate i).run (peers i) seq).2

/-- `sqlx_synchronous_resync`。届いた base は master の内容になる。 -/
def synchronousResync (net : Net n) (resyncTodo : List (Fin n)) (db : S.Db) (peers : Fin n → Sq3 S) :
    Fin n → Sq3 S :=
  if net.dump.isSome then peers
  else fun i =>
    if i ∈ resyncTodo ∧ net.restored i then adminReload { peers i with db := db, saved := none }
    else peers i

/-! ## transaction -/

/-- 開いている transaction。`saved` は ROLLBACK で戻る内容。 -/
structure Tnx (S : Schema) where
  saved : S.Db
  sq3 : Sq3 S

/-- `sqlx_transaction_begin`。`has` は `election_has_peers` の答え。 -/
def transactionBegin (sq3 : Sq3 S) (has : Except GError Bool) (heap : Nat → Bytes) :
    Except GError (Tnx S) :=
  match has with
  | .error e => .error ((e.prefixed "Peer resolution: ").prefixed "TNX error: ")
  | .ok has => .ok ⟨sq3.saved.getD sq3.db,
    adminReload { sq3 with ctx := .create (!has) sq3.total heap }⟩

def Tnx.exec (t : Tnx S) (stmts : List Stmt) : Option (Tnx S) :=
  (t.sq3.execAll stmts).map fun sq3 => { t with sq3 := sq3 }

/-- `sqlx_transaction_notify_huge_changes` -/
def transactionNotifyHugeChanges (t : Tnx S) : Tnx S :=
  { t with sq3 := { t.sq3 with ctx := { t.sq3.ctx with huge := true } } }

/-- ROLLBACK と、admin table の読み直し -/
def Tnx.rollback (t : Tnx S) : Sq3 S :=
  adminReload { t.sq3 with db := t.saved, ctx := .idle, saved := none }

/-- COMMIT の直前の base と、送る rowset -/
def Tnx.changed (t : Tnx S) : Sq3 S × List RowsetTable := transactionChanges (adminReload t.sq3)

/-- COMMIT の hook の拒否は `SQLITE_CONSTRAINT` になり、ROLLBACK される -/
def sqliteConstraint : Int := 19

/-- COMMIT が失敗した base。transaction は開いたまま。 -/
def Tnx.stuck (t : Tnx S) : Sq3 S :=
  adminReload { t.changed.1 with ctx := .idle, saved := some t.saved }

structure Ended (S : Schema) (n : Nat) where
  err : Option GError
  master : Option (Sq3 S)
  peers : Fin n → Sq3 S

open Tnx

theorem Ended.eq_of_ok {e : Ended S n} {m : Sq3 S} (herr : e.err = none) (hm : e.master = some m) :
    e = ⟨none, some m, e.peers⟩ := by
  obtain ⟨err, master, peers⟩ := e
  cases herr
  cases hm
  rfl

/-- COMMIT とその後始末 -/
def Tnx.commit (t : Tnx S) (mode : ElectionMode) (net : Net n) (peers : Fin n → Sq3 S) : Ended S n :=
  let (sq3, seq) := t.changed
  let (accepted, resyncTodo) := hookCommit mode net sq3.ctx seq peers
  let peers := sendReplicate net sq3.ctx seq peers
  let failed rc := some ((sqliteGerror net.sql rc).prefixed "COMMIT failed: ")
  if accepted then
    match net.sql.commit with
    | some rc => ⟨failed rc, some t.stuck, peers⟩
    | none => ⟨none, some { sq3 with ctx := .idle, saved := none },
        synchronousResync net resyncTodo sq3.db peers⟩
  else ⟨failed sqliteConstraint, some t.rollback, peers⟩

/-- `sqlx_transaction_end` -/
def transactionEnd (mode : ElectionMode) (net : Net n) (peers : Fin n → Sq3 S) (tnx : Option (Tnx S))
    (err : Option GError) : Ended S n :=
  match tnx, err with
  | none, err => ⟨some ((err.getD ⟨500, "no tnx"⟩).prefixed "transaction error: "), none, peers⟩
  | some t, some e => ⟨some e, some t.rollback, peers⟩
  | some t, none => t.commit mode net peers

/-! ## 集計の性質 -/

theorem writes_contextPendingIncVersions (x : Sq3 S) :
    ∃ calls, Writes x calls (contextPendingIncVersions x) := by
  refine writes_foldl (fun x p => ?_) _ x
  split
  · exact writes_adminIncVersion x _ 1
  · exact ⟨[], .refl x⟩

theorem moves_adminReload (x : Sq3 S) : ∃ calls, Moves x calls 0 (adminReload x) := by
  obtain ⟨calls, hw⟩ := writes_adminReload x
  exact ⟨calls, hw.moves.ctx, hw.moves.total, hw.moves.follows⟩

variable {y peer : Sq3 S} {calls : List Call} {k trunc : Nat}

theorem Moves.frame {x : Sq3 S} (h : Moves x calls k y) :
    y.ctx.hollow = x.ctx.hollow ∧ y.ctx.huge = x.ctx.huge ∧ y.ctx.heap = x.ctx.heap := by
  rw [h.ctx]
  exact hooks_frame calls x.ctx

variable {x : Sq3 S} {heap : Nat → Bytes} {t₀ t : Tnx S} {stmts : List Stmt}

/-- `transactionBegin` の作る、何も触れていない base -/
def Sq3.fresh (x : Sq3 S) (heap : Nat → Bytes) : Sq3 S :=
  { x with ctx := .create false x.total heap }

def startTnx (x : Sq3 S) (heap : Nat → Bytes) : Tnx S :=
  ⟨x.saved.getD x.db, adminReload (x.fresh heap)⟩

theorem transactionBegin_ok (x : Sq3 S) (heap : Nat → Bytes) :
    transactionBegin x (.ok true) heap = .ok (startTnx x heap) := rfl

/-- **始めた transaction は触れた行を最初から覚えている。** -/
theorem moves_of_exec (hbegin : transactionBegin x (.ok true) heap = .ok t₀)
    (hexec : t₀.exec stmts = some t) :
    t.saved = x.saved.getD x.db ∧ ∃ calls trunc, Moves (x.fresh heap) calls trunc t.sq3 := by
  cases hbegin
  obtain ⟨y, hy, rfl⟩ := map_eq_some_iff.mp hexec
  obtain ⟨calls, hm⟩ := moves_adminReload (x.fresh heap)
  obtain ⟨calls', trunc, hm'⟩ := moves_execAll hy
  exact ⟨rfl, _, _, hm.trans hm'⟩

/-- 読み直して version を増やした base -/
def Tnx.counted (t : Tnx S) : Sq3 S := contextPendingIncVersions (adminReload t.sq3)

theorem transactionChanges_frame (y : Sq3 S) : (transactionChanges y).1.ctx.hollow = y.ctx.hollow ∧
    (transactionChanges y).1.ctx.huge = (y.ctx.huge || y.total != y.ctx.changes) := by
  unfold transactionChanges
  dsimp only
  generalize (y.ctx.huge || y.total != y.ctx.changes) = huge
  split
  · obtain ⟨calls, hw⟩ := writes_contextPendingIncVersions
      { y with ctx := { y.ctx with huge := huge } }
    exact ⟨hw.moves.frame.1, hw.moves.frame.2.1⟩
  obtain ⟨calls, hw⟩ := writes_adminIncAllVersions
    (contextFlushPending { y with ctx := { y.ctx with huge := huge } }) 2
  exact ⟨hw.moves.frame.1, hw.moves.frame.2.1⟩

theorem transactionChanges_small (hhollow : y.ctx.hollow = false)
    (hsmall : (transactionChanges y).1.ctx.huge = false) :
    y.total = y.ctx.changes ∧ transactionChanges y =
      (contextFlushPending (contextPendingIncVersions y),
        contextPendingToRowset (contextPendingIncVersions y).db
          (contextPendingIncVersions y).ctx.pending) := by
  rw [(transactionChanges_frame y).2] at hsmall
  obtain ⟨hhuge, htotal⟩ := Bool.or_eq_false_iff.mp hsmall
  refine ⟨by simpa using htotal, ?_⟩
  unfold transactionChanges
  have heta : { y with ctx := { y.ctx with huge := false } } = y := by
    rw [← hhuge]
  rw [hsmall, if_pos ⟨hhollow, rfl⟩, heta]

/-- **小さい transaction では、触れた行が rowset になる。** -/
theorem Tnx.changed_small (hm : Moves (x.fresh heap) calls trunc t.sq3)
    (hsmall : t.changed.1.ctx.huge = false) :
    trunc = 0 ∧ t.changed =
      (contextFlushPending t.counted, contextPendingToRowset t.counted.db t.counted.ctx.pending) := by
  obtain ⟨calls', hr⟩ := moves_adminReload t.sq3
  have hz := hm.trans hr
  obtain ⟨htotal, heq⟩ := transactionChanges_small hz.frame.1 hsmall
  refine ⟨?_, heq⟩
  rw [hz.total, hz.ctx, (hooks_allocs (calls ++ calls') (x.fresh heap).ctx rfl rfl).2] at htotal
  simp only [Sq3.fresh, Repctx.create] at htotal
  omega

theorem Tnx.moves_counted (hm : Moves (x.fresh heap) calls 0 t.sq3) :
    ∃ calls', Moves (x.fresh heap) calls' 0 t.counted := by
  obtain ⟨c, hr⟩ := moves_adminReload t.sq3
  obtain ⟨c', hw⟩ := writes_contextPendingIncVersions (adminReload t.sq3)
  exact ⟨_, (hm.trans hr).trans hw.moves⟩

theorem named_fresh (hm : Moves (x.fresh heap) calls k y) : y.ctx.pending.Named := by
  rw [hm.ctx]
  exact named_hooks calls _ fun h rows hk => by simp [Sq3.fresh, Repctx.create] at hk

/-! ## 送られたものを含む base -/

/-- table の変更が適用されている -/
def RowsetTable.Applied (u : RowsetTable) (db : S.Db) : Prop :=
  (∀ p ∈ u.ups, (db u.name).get? p.1 = some p.2) ∧
    ∀ r ∈ u.dels, r ∉ u.ups.map Prod.fst → (db u.name).get? r = none

/-- 内容 `db` は transaction で送られたものを含む。master の全体か、rowset の適用された内容で、読み直しで加わる version の行は
問わない。rowset が変更をすべて伝えるとは限らない（`replaced_row_remains`）。 -/
def Tnx.Contained (t : Tnx S) (db : S.Db) : Prop :=
  Reloaded t.changed.1.db db ∨
    t.changed.1.ctx.huge = false ∧ ∃ db₀, (∀ u ∈ t.changed.2, u.Applied db₀) ∧ Reloaded db₀ db

theorem applied_of_replicateNow {p : Pending} {mdb db db' : S.Db} {env : SqlEnv} (hp : p.Named)
    (h : replicateNow env (contextPendingToRowset mdb p) db = (none, db')) :
    ∀ u ∈ contextPendingToRowset mdb p, u.Applied db' := by
  intro u hu
  have hprep := ((replicateNow_ok _ h (rowset_pairwise hp mdb)).1 u hu).1.prepares
  obtain ⟨k, rows, hk, rfl⟩ := mem_rowset hu
  have htable : rowsetTable mdb k.s rows = tableRowset mdb p k.s := by
    rw [tableRowset, contextGetPendingTable, ← (hp k rows hk).1, hk, getD_some]
  have hups : ∀ q ∈ (tableRowset mdb p k.s).ups, (mdb k.s).get? q.1 = some q.2 :=
    fun q hq => ups_get? hprep hq
  rw [htable]
  refine ⟨fun q hq => ?_, fun r hr hne => ?_⟩ <;>
    rw [show (tableRowset mdb p k.s).name = k.s from rfl, replicateNow_rowset hp h,
      KeyedTable.get?_applyDiff _ hups]
  · rw [if_pos (mem_map.mpr ⟨q, hq, rfl⟩)]
    exact hups q hq
  · rw [if_neg hne, if_pos hr]

/-! ## 定足数 -/

variable {mode : ElectionMode} {net : Net n} {seq : List RowsetTable} {peers peers' : Fin n → Sq3 S}

theorem Fate.run_none {f : Fate} (h : f.run peer seq = (none, y)) :
    ∃ env, replicateBodyManage env peer (some seq) = (none, y) := by
  cases f with
  | refused e => cases h
  | handled env lost =>
    refine ⟨env, ?_⟩
    simp only [Fate.run, Prod.mk.injEq, or_eq_none_iff] at h
    exact Prod.ext h.1.2 h.2

/-- COMMIT の後で resync する peer -/
def Tnx.resyncTodo (t : Tnx S) (mode : ElectionMode) (net : Net n) (peers : Fin n → Sq3 S) :
    List (Fin n) := (hookCommit mode net t.changed.1.ctx t.changed.2 peers).2

/-- REPLICATE を送った後の peer -/
def Tnx.sent (t : Tnx S) (net : Net n) (peers : Fin n → Sq3 S) : Fin n → Sq3 S :=
  sendReplicate net t.changed.1.ctx t.changed.2 peers

/-- COMMIT は hook が拒んで ROLLBACK になるか、通したのに失敗して開いたままになるか、resync まで行う -/
theorem Tnx.commit_cases (t : Tnx S) (mode : ElectionMode) (net : Net n) (peers : Fin n → Sq3 S) :
    (∃ e, t.commit mode net peers = ⟨some e, some t.rollback, t.sent net peers⟩) ∨
    (net.sql.commit.isSome ∧
      ∃ e, t.commit mode net peers = ⟨some e, some t.stuck, t.sent net peers⟩) ∨
    (hookCommit mode net t.changed.1.ctx t.changed.2 peers).1 = true ∧
      t.commit mode net peers = ⟨none, some { t.changed.1 with ctx := .idle, saved := none },
        synchronousResync net (t.resyncTodo mode net peers) t.changed.1.db (t.sent net peers)⟩ := by
  simp only [commit]
  split
  · next hok =>
    split
    · next hc => exact .inr (.inl ⟨by rw [hc]; rfl, _, rfl⟩)
    · exact .inr (.inr ⟨hok, rfl⟩)
  · exact .inl ⟨_, rfl⟩

theorem replicateOnPeers_quorum (h : (replicateOnPeers .quorum net seq peers).1 = none) :
    groupToQuorum (1 + n) ≤
        1 + (finRange n).countP (fun i => (net.reply seq peers i).all isConflict) ∧
      (replicateOnPeers .quorum net seq peers).2 =
        (finRange n).filter fun i => (net.reply seq peers i).any isConflict := by
  unfold replicateOnPeers at h ⊢
  split at h
  · cases h
  rw [if_neg (by decide)] at h
  split at h
  · cases h
  · next hq =>
    refine ⟨by omega, ?_⟩
    simp

theorem Tnx.contained_of_accept {env : SqlEnv} (hm : Moves (x.fresh heap) calls trunc t.sq3)
    (hsmall : t.changed.1.ctx.huge = false) (hne : t.changed.2 ≠ [])
    (h : replicateBodyManage env peer (some t.changed.2) = (none, y)) : t.Contained y.db := by
  obtain ⟨rfl, heq⟩ := changed_small hm hsmall
  obtain ⟨calls', hm'⟩ := moves_counted hm
  obtain ⟨db, ⟨hdb, -⟩, rfl⟩ := replicateBodyManage_ok hne h
  refine .inr ⟨hsmall, db, ?_, reloaded_adminReload { peer with db := db, saved := none }⟩
  rw [heq] at hdb ⊢
  exact applied_of_replicateNow (named_fresh hm') hdb

theorem synchronousResync_eq (net : Net n) (todo : List (Fin n)) (db : S.Db) (peers : Fin n → Sq3 S)
    (i : Fin n) : synchronousResync net todo db peers i =
      if i ∈ todo ∧ net.dump.isNone ∧ net.restored i then
        adminReload { peers i with db := db, saved := none }
      else peers i := by
  unfold synchronousResync
  cases net.dump <;> simp

theorem Tnx.contained_resync {todo : List (Fin n)} {i : Fin n} (hi : i ∈ todo) :
    t.Contained (synchronousResync net todo t.changed.1.db peers i).db ∨
      net.dump.isSome ∨ net.restored i = false := by
  by_cases hr : net.dump.isNone ∧ net.restored i
  · rw [synchronousResync_eq, if_pos ⟨hi, hr⟩]
    exact .inl (.inl (reloaded_adminReload { peers i with db := t.changed.1.db, saved := none }))
  refine .inr ?_
  cases hd : net.dump with
  | some e => exact .inl rfl
  | none => exact .inr (by simpa [hd] using hr)

theorem Tnx.hollow_changed (hm : Moves (x.fresh heap) calls trunc t.sq3) :
    t.changed.1.ctx.hollow = false := by
  obtain ⟨_, hr⟩ := moves_adminReload t.sq3
  rw [changed, (transactionChanges_frame _).1]
  exact (hm.trans hr).frame.1

theorem Tnx.contained_or_failed {i : Fin n} (hi : i ∈ t.resyncTodo .quorum net peers) :
    t.Contained (synchronousResync net (t.resyncTodo .quorum net peers)
        t.changed.1.db (t.sent net peers) i).db ∨
      i ∈ t.resyncTodo .quorum net peers ∧ (net.dump.isSome ∨ net.restored i = false) :=
  (contained_resync hi).imp_right fun h => ⟨hi, h⟩

theorem Tnx.hookCommit_sent (hn : n ≠ 0) (hhollow : t.changed.1.ctx.hollow = false)
    (hsmall : t.changed.1.ctx.huge = false) (hne : t.changed.2 ≠ [])
    (hok : (hookCommit .quorum net t.changed.1.ctx t.changed.2 peers).1 = true) :
    net.getPeers = none ∧ hookCommit .quorum net t.changed.1.ctx t.changed.2 peers =
      ((replicateOnPeers .quorum net t.changed.2 peers).1.isNone,
        (replicateOnPeers .quorum net t.changed.2 peers).2) := by
  have hpeers : net.getPeers = none := by
    by_contra hsome
    obtain ⟨e, he⟩ := ne_none_iff_exists'.mp hsome
    simp [hookCommit, performReplicate, hhollow, hsmall, hne, he] at hok
  exact ⟨hpeers, by simp [hookCommit, performReplicate, hhollow, hsmall, hne, hpeers, hn]⟩

theorem Tnx.contained_of_counted {i : Fin n} (hn : n ≠ 0)
    (hm : Moves (x.fresh heap) calls trunc t.sq3) (hsmall : t.changed.1.ctx.huge = false)
    (hne : t.changed.2 ≠ [])
    (hok : (hookCommit .quorum net t.changed.1.ctx t.changed.2 peers).1 = true)
    (hi : (net.reply t.changed.2 peers i).all isConflict = true) :
    t.Contained (synchronousResync net (t.resyncTodo .quorum net peers)
        t.changed.1.db (t.sent net peers) i).db ∨
      i ∈ t.resyncTodo .quorum net peers ∧ (net.dump.isSome ∨ net.restored i = false) := by
  have hhollow := hollow_changed hm
  obtain ⟨hpeers, hcommit⟩ := hookCommit_sent hn hhollow hsmall hne hok
  rw [hcommit] at hok
  have hresync := (replicateOnPeers_quorum (isNone_iff_eq_none.mp hok)).2
  have hmem : i ∈ t.resyncTodo .quorum net peers ↔
      (net.reply t.changed.2 peers i).any isConflict = true := by
    rw [resyncTodo, hcommit, hresync]
    simp
  cases hreply : net.reply t.changed.2 peers i with
  | some e =>
    rw [hreply] at hi hmem
    exact contained_or_failed (hmem.mpr hi)
  | none =>
    rw [hreply] at hmem
    have hnot : i ∉ t.resyncTodo .quorum net peers := fun h => by simpa using hmem.mp h
    obtain ⟨env, henv⟩ := Fate.run_none (Prod.ext hreply rfl)
    refine .inl ?_
    rw [synchronousResync_eq, if_neg fun h => hnot h.1, sent, sendReplicate]
    simpa [hhollow, hsmall, hne, hpeers] using contained_of_accept hm hsmall hne henv

/-- **成功した transaction では、送られたものを含む peer と resync に失敗した peer を合わせると、master を入れて定足数に達する。** -/
theorem quorum_or_resync {m : Sq3 S} (hbegin : transactionBegin x (.ok true) heap = .ok t₀)
    (hexec : t₀.exec stmts = some t) (hpeers : t.changed.1.ctx.huge = true → net.getPeers = none)
    (hend : transactionEnd .quorum net peers (some t) none = ⟨none, some m, peers'⟩) :
    m.db = t.changed.1.db ∧ ∃ members : Finset (Fin n),
      groupToQuorum (1 + n) ≤ 1 + members.card ∧ ∀ i ∈ members, t.Contained (peers' i).db ∨
        i ∈ t.resyncTodo .quorum net peers ∧ (net.dump.isSome ∨ net.restored i = false) := by
  obtain ⟨-, calls, trunc, hm⟩ := moves_of_exec hbegin hexec
  rcases commit_cases t .quorum net peers with ⟨e, he⟩ | ⟨-, e, he⟩ | ⟨hok, he⟩
  · cases he.symm.trans hend
  · cases he.symm.trans hend
  cases he.symm.trans hend
  refine ⟨rfl, ?_⟩
  have hall : groupToQuorum (1 + n) ≤ 1 + (Finset.univ : Finset (Fin n)).card := by
    rw [Finset.card_univ, Fintype.card_fin, groupToQuorum]
    omega
  have hhollow := hollow_changed hm
  by_cases hhuge : t.changed.1.ctx.huge = true
  · -- 全体を送る transaction では、どの peer も resync する
    refine ⟨Finset.univ, hall, fun i _ => contained_or_failed ?_⟩
    simp [resyncTodo, hookCommit, hhollow, hhuge, hpeers hhuge]
  rw [Bool.not_eq_true] at hhuge
  by_cases hseq : t.changed.2 = []
  · -- 変更の無い transaction は、どの peer も含む
    refine ⟨Finset.univ, hall, fun i _ => .inl (.inr ⟨hhuge, _, ?_, .refl _⟩)⟩
    rw [hseq]
    exact fun u hu => absurd hu not_mem_nil
  by_cases hn : n = 0
  · exact ⟨Finset.univ, hall, fun i _ => absurd i.isLt (by omega)⟩
  -- 成功に数えられた peer を集める
  refine ⟨((finRange n).filter fun i => (net.reply t.changed.2 peers i).all isConflict).toFinset,
    ?_, fun i hi => contained_of_counted hn hm hhuge hseq hok (by simpa using hi)⟩
  rw [(hookCommit_sent hn hhollow hhuge hseq hok).2] at hok
  rw [toFinset_card_of_nodup ((nodup_finRange n).filter _), ← countP_eq_length_filter]
  exact (replicateOnPeers_quorum (isNone_iff_eq_none.mp hok)).1

/-! ## 具体的な transaction -/

def insertStmts (tn : Bytes) : List Stmt := [.rows tn [.insert 1 [.int 7]]]

def base3 : Sq3 demoSchema := storeBase demoSchema (ascii "t") (ascii "3:0")

/-- どの REPLICATE も届き、RESTORE は `restored` のとき届く -/
def openNet (restored : Bool) : Net 2 :=
  ⟨none, none, fun _ => .handled .clean none, .clean, none, fun _ => restored⟩

theorem quorum_or_resync_insertStmts : ∃ (t : Tnx demoSchema) (m : Sq3 demoSchema)
    (peers' : Fin 2 → Sq3 demoSchema),
    transactionBegin base5 (.ok true) (fun _ => []) = .ok (startTnx base5 fun _ => []) ∧
      (startTnx base5 fun _ => []).exec (insertStmts (ascii "t")) = some t ∧
      transactionEnd .quorum (openNet true) (fun _ => base5) (some t) none =
        ⟨none, some m, peers'⟩ ∧
      m.db = t.changed.1.db ∧ ∃ members : Finset (Fin 2),
        groupToQuorum (1 + 2) ≤ 1 + members.card ∧ ∀ i ∈ members, t.Contained (peers' i).db := by
  obtain ⟨t, ht, herr, hsome⟩ : ∃ t ∈ (startTnx base5 fun _ => []).exec (insertStmts (ascii "t")),
      let e := transactionEnd .quorum (openNet true) (fun _ => base5) (some t) none
      e.err = none ∧ e.master.isSome := by
    decide +kernel
  obtain ⟨m, hm⟩ := isSome_iff_exists.mp hsome
  have hend := Ended.eq_of_ok herr hm
  obtain ⟨hdb, members, hq, hall⟩ := quorum_or_resync (transactionBegin_ok base5 fun _ => []) ht
    (fun _ => rfl) hend
  refine ⟨t, m, _, transactionBegin_ok .., ht, hend, hdb, members, hq, fun i hi => ?_⟩
  rcases hall i hi with h | ⟨-, h | h⟩
  · exact h
  · cases h
  · cases h

/-- **2 つの peer に RESTORE が届かないと、成功した transaction の変更は master にしか無い。** -/
theorem quorum_without_changes : ∃ (t : Tnx demoSchema) (m : Sq3 demoSchema)
    (peers' : Fin 2 → Sq3 demoSchema),
    transactionBegin base5 (.ok true) (fun _ => []) = .ok (startTnx base5 fun _ => []) ∧
      (startTnx base5 fun _ => []).exec (insertStmts (ascii "t")) = some t ∧
      transactionEnd .quorum (openNet false) (fun _ => base3) (some t) none =
        ⟨none, some m, peers'⟩ ∧
      (m.db (ascii "main.t")).get? 1 = some [.int 7] ∧
      (∀ i, ((peers' i).db (ascii "main.t")).get? 1 = none) ∧ 1 < groupToQuorum 2 := by
  obtain ⟨t, ht, herr, hsome, hrow, hpeers⟩ :
      ∃ t ∈ (startTnx base5 fun _ => []).exec (insertStmts (ascii "t")),
        let e := transactionEnd .quorum (openNet false) (fun _ => base3) (some t) none
        e.err = none ∧ e.master.isSome ∧
        (∀ m ∈ e.master, (m.db (ascii "main.t")).get? 1 = some [.int 7]) ∧
        ∀ i, ((e.peers i).db (ascii "main.t")).get? 1 = none := by
    decide +kernel
  obtain ⟨m, hm⟩ := isSome_iff_exists.mp hsome
  exact ⟨t, m, _, transactionBegin_ok .., ht, Ended.eq_of_ok herr hm, hrow m hm, hpeers, by decide⟩

end Redcurrant.Sqliterepo
