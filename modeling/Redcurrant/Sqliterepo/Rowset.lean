import Redcurrant.Sqliterepo.Base

/-!
# rowset の作成と適用

master は触れた行の今の内容を集め、slave は table ごとに削除をすべて行ってから残りを `REPLACE INTO` で書く。
-/

namespace Redcurrant.Sqliterepo

open Infra Metautils Std List Option Function ExtTreeMap

variable {S : Schema}

/-! ## master -/

/-- `Row_t`。`fields` が `none` の行は削除を表す。 -/
structure RowsetRow where
  rowid : Rowid
  fields : Option Row
  deriving DecidableEq

/-- `Table_t`。`header` は列の名前。 -/
structure RowsetTable where
  name : Bytes
  header : List Bytes
  rows : List RowsetRow
  deriving DecidableEq

/-- `load_table_row`。文が準備できなければ、何も読まれない。 -/
def loadTableRow (db : S.Db) (name : Bytes) (r : Rowid) : Option Row :=
  if S.prepares name then (db name).get? r else none

/-- `context_pending_to_rowset` の `_on_row` -/
def rowsetRow (db : S.Db) (name : Bytes) (e : Rowid × Bool) : RowsetRow :=
  ⟨e.1, if e.2 then none else loadTableRow db name e.1⟩

/-- `load_table_header`。最初に読んだ行で一度だけ集め、行が読まれなければ空のまま。 -/
def loadTableHeader (S : Schema) (name : Bytes) (rows : List RowsetRow) : List Bytes :=
  if rows.any (·.fields.isSome) then S.columns name else []

/-- `context_pending_to_rowset` の `_on_table` -/
def rowsetTable (db : S.Db) (name : Bytes) (rows : Subtree) : RowsetTable :=
  let loaded := rows.toList.map fun p => rowsetRow db name p.2
  ⟨name, loadTableHeader S name loaded, loaded⟩

def contextPendingToRowset (db : S.Db) (pending : Pending) : List RowsetTable :=
  pending.toList.map fun p => rowsetTable db p.1.s p.2

/-! ## slave -/

/-- slave の SQLite の失敗。`step` は文の、`commit` は COMMIT の error code。 -/
structure SqlEnv where
  step : Bytes → Rowid → Option Int
  commit : Option Int
  errmsg : Int → String

def SqlEnv.clean : SqlEnv := ⟨fun _ _ => none, none, fun _ => ""⟩

def sqliteGerror (env : SqlEnv) (rc : Int) : GError := ⟨rc, env.errmsg rc⟩

/-- `g_prefix_error` -/
def GError.prefixed (e : GError) (s : String) : GError := { e with message := s ++ e.message }

def sqliteError : Int := 1
def sqliteSchema : Int := 17

/-- `_table_name_check` が拒む byte -/
def badNameByte (b : UInt8) : Bool :=
  !(32 ≤ b && b ≤ 126) || b == 32 || b == 59 || b == 44 || b == 39 || b == 34

def tableNameCheck (name : Bytes) : Option GError :=
  if name = [] then some ⟨400, "Empty table name"⟩
  else if name.any badNameByte then some ⟨400, "Invalid table name"⟩
  else none

/-- 削除を表す行の rowid -/
def RowsetTable.dels (t : RowsetTable) : List Rowid :=
  t.rows.filterMap fun r => if r.fields.isNone then some r.rowid else none

def RowsetTable.ups (t : RowsetTable) : List (Rowid × Row) :=
  t.rows.filterMap fun r => r.fields.map (r.rowid, ·)

/-- `replicate_table_deletes` の loop。最初の error で止まる。 -/
def deleteRows (env : SqlEnv) (name : Bytes) : List Rowid → S.Db → Option GError × S.Db
  | [], db => (none, db)
  | r :: rs, db =>
    match env.step name r with
    | some rc => (some (sqliteGerror env rc), db)
    | none => deleteRows env name rs (db.set name ((db name).erase r))

def replicateTableDeletes (env : SqlEnv) (db : S.Db) (t : RowsetTable) : Option GError × S.Db :=
  if t.dels = [] then (none, db)
  else if S.prepares t.name then deleteRows env t.name t.dels db
  else (some (sqliteGerror env sqliteError), db)

/-- `replicate_table_updates` の loop。最後の error を返す。 -/
def updateRows (env : SqlEnv) (name : Bytes) :
    List (Rowid × Row) → Option GError → S.Db → Option GError × S.Db
  | [], err, db => (err, db)
  | (r, x) :: rs, err, db =>
    match env.step name r with
    | some rc => updateRows env name rs (some (sqliteGerror env rc)) db
    | none => updateRows env name rs err (db.set name ((db name).replaceInto r x))

/-- `replicate_table_updates`。文は書く行が無くても準備される。 -/
def replicateTableUpdates (env : SqlEnv) (db : S.Db) (t : RowsetTable) : Option GError × S.Db :=
  if S.replaces t.name t.header then updateRows env t.name t.ups none db
  else (some (sqliteGerror env sqliteError), db)

def replicateTable (env : SqlEnv) (db : S.Db) (t : RowsetTable) : Option GError × S.Db :=
  match tableNameCheck t.name with
  | some e => (some (e.prefixed "table error: "), db)
  | none =>
    match replicateTableDeletes env db t with
    | (some e, db) => (some (e.prefixed "Error on delete: "), db)
    | (none, db) =>
      match replicateTableUpdates env db t with
      | (some e, db) => (some (e.prefixed "Error on updates: "), db)
      | (none, db) => (none, db)

/-- `_replicate_now`。最初の error で止まる。 -/
def replicateNow (env : SqlEnv) : List RowsetTable → S.Db → Option GError × S.Db
  | [], db => (none, db)
  | t :: ts, db =>
    match replicateTable env db t with
    | (some e, db) => (some e, db)
    | (none, db) => replicateNow env ts db

/-! ## 適用の結果 -/

variable {env : SqlEnv} {db db' : S.Db} {name : Bytes} {t : RowsetTable}

theorem deleteRows_ok : ∀ (rs : List Rowid) {db db' : S.Db},
    deleteRows env name rs db = (none, db') →
      db' = db.set name (rs.foldl KeyedTable.erase (db name))
  | [], db, db', h => by
    cases h
    exact (update_eq_self ..).symm
  | r :: rs, db, db', h => by
    simp only [deleteRows] at h
    split at h
    · cases h
    · rw [deleteRows_ok rs h, Schema.Db.set_self]
      exact update_idem ..

theorem updateRows_ok : ∀ (rs : List (Rowid × Row)) {err : Option GError} {db db' : S.Db},
    updateRows env name rs err db = (none, db') →
      err = none ∧ db' = db.set name (rs.foldl (fun t p => t.replaceInto p.1 p.2) (db name))
  | [], err, db, db', h => by
    cases h
    exact ⟨rfl, (update_eq_self ..).symm⟩
  | (r, x) :: rs, err, db, db', h => by
    simp only [updateRows] at h
    split at h
    · cases (updateRows_ok rs h).1
    obtain ⟨he, hdb⟩ := updateRows_ok rs h
    refine ⟨he, ?_⟩
    rw [hdb, Schema.Db.set_self]
    exact update_idem ..

/-- 名前が検査に通り、列を書く文が準備できる table -/
def RowsetTable.Fits (S : Schema) (t : RowsetTable) : Prop :=
  tableNameCheck t.name = none ∧ S.replaces t.name t.header = true

theorem RowsetTable.Fits.prepares (h : t.Fits S) : S.prepares t.name = true :=
  S.prepares_of_replaces _ _ h.2

/-- **table の適用が成功したときの内容。** -/
theorem replicateTable_ok (h : replicateTable env db t = (none, db')) :
    t.Fits S ∧ db' = db.set t.name ((db t.name).applyDiff t.dels t.ups) := by
  unfold replicateTable at h
  split at h
  · cases h
  rename_i hname
  split at h
  · cases h
  rename_i db₁ hdel
  split at h
  · cases h
  rename_i db2 hup
  cases h
  unfold replicateTableUpdates at hup
  split at hup
  · next hp =>
    refine ⟨⟨hname, hp⟩, ?_⟩
    rw [(updateRows_ok _ hup).2]
    unfold replicateTableDeletes at hdel
    split at hdel
    · next hnil =>
      cases hdel
      rw [hnil]
      rfl
    · rw [if_pos (S.prepares_of_replaces _ _ hp)] at hdel
      rw [deleteRows_ok _ hdel, Schema.Db.set_self]
      exact update_idem ..
  · cases hup

theorem deleteRows_clean (hs : ∀ r, env.step name r = none) :
    ∀ (rs : List Rowid) (db : S.Db), (deleteRows env name rs db).1 = none
  | [], _ => rfl
  | r :: rs, db => by
    simp only [deleteRows, hs]
    exact deleteRows_clean hs rs _

theorem updateRows_clean (hs : ∀ r, env.step name r = none) :
    ∀ (rs : List (Rowid × Row)) (db : S.Db), (updateRows env name rs none db).1 = none
  | [], _ => rfl
  | (r, x) :: rs, db => by
    simp only [updateRows, hs]
    exact updateRows_clean hs rs _

theorem replicateTable_clean (hs : ∀ r, env.step t.name r = none) (ht : t.Fits S) :
    replicateTable env db t = (none, db.set t.name ((db t.name).applyDiff t.dels t.ups)) := by
  have hd : (replicateTableDeletes env db t).1 = none := by
    unfold replicateTableDeletes
    split
    · rfl
    rw [if_pos ht.prepares]
    exact deleteRows_clean hs _ _
  have hu : ∀ db : S.Db, (replicateTableUpdates env db t).1 = none := by
    intro db
    rw [replicateTableUpdates, if_pos ht.2]
    exact updateRows_clean hs _ _
  have hok : (replicateTable env db t).1 = none := by
    rw [replicateTable, ht.1]
    dsimp only
    split
    · next e _ he => rw [he] at hd; cases hd
    rename_i db₁ _
    split
    · next e _ he => have := hu db₁; rw [he] at this; cases this
    · rfl
  exact Prod.ext hok (replicateTable_ok (Prod.ext hok rfl)).2

/-! ## rowset の行 -/

section Entries

variable {p : Pending} {r : Rowid} {x : Row}

theorem mem_rowset (ht : t ∈ contextPendingToRowset db p) :
    ∃ (h : Hashstr) (rows : Subtree), p[h]? = some rows ∧ t = rowsetTable db h.s rows := by
  obtain ⟨⟨h, rows⟩, hm, rfl⟩ := mem_map.mp ht
  exact ⟨h, rows, mem_toList_iff_getElem?_eq_some.mp hm, rfl⟩

/-- table の鍵は full name から作られ、触れた行がある -/
def Pending.Named (p : Pending) : Prop :=
  ∀ (h : Hashstr) (rows : Subtree), p[h]? = some rows → h = Hashstr.create h.s ∧ 0 < rows.size

theorem named_hooks (calls : List Call) : ∀ ctx : Repctx, ctx.pending.Named →
    (ctx.hooks calls).pending.Named := by
  induction calls with
  | nil => exact fun _ h => h
  | cons c calls ih =>
    intro ctx h
    refine ih (hookUpdate ctx c.op c.bn c.tn c.rowid) ?_
    unfold hookUpdate
    split
    · exact h
    intro k rows hk
    rw [ExtTreeMap.getElem?_insert] at hk
    split at hk
    · next he =>
      cases hk
      refine ⟨by rw [← Hashstr.quickCmp_eq_eq.mp he]; rfl, Nat.pos_of_ne_zero fun hz => ?_⟩
      rw [← eq_empty_iff_size_eq_zero] at hz
      exact insert_ne_empty hz
    · exact h k rows hk

theorem mem_rows_iff {rows : Subtree} {row : RowsetRow} : row ∈ (rowsetTable db name rows).rows ↔
    ∃ (slot : Hashstr) (e : Rowid × Bool), rows[slot]? = some e ∧ rowsetRow db name e = row := by
  simp [rowsetTable]

def tableRowset (db : S.Db) (p : Pending) (name : Bytes) : RowsetTable :=
  rowsetTable db name (contextGetPendingTable p (Hashstr.create name))

variable (hp : S.prepares name = true)
include hp

theorem mem_ups_iff : (r, x) ∈ (tableRowset db p name).ups ↔
    (∃ slot, p.entry name slot = some (r, false)) ∧ (db name).get? r = some x := by
  simp only [RowsetTable.ups, mem_filterMap, tableRowset, mem_rows_iff, Pending.entry]
  constructor
  · rintro ⟨_, ⟨slot, ⟨r', d⟩, hs, rfl⟩, hx⟩
    cases d with
    | true => cases hx
    | false =>
      simp only [rowsetRow, loadTableRow, hp, if_true, Bool.false_eq_true, if_false,
        map_eq_some_iff] at hx
      obtain ⟨x', hx', he⟩ := hx
      cases he
      exact ⟨⟨slot, hs⟩, hx'⟩
  · rintro ⟨⟨slot, hs⟩, hx⟩
    exact ⟨_, ⟨slot, _, hs, rfl⟩, by simp [rowsetRow, loadTableRow, hp, hx]⟩

theorem mem_dels_iff (db : S.Db) (p : Pending) (r : Rowid) :
    r ∈ (tableRowset db p name).dels ↔ ∃ slot d, p.entry name slot = some (r, d) ∧
      (d = true ∨ (db name).get? r = none) := by
  simp only [RowsetTable.dels, mem_filterMap, tableRowset, mem_rows_iff, Pending.entry]
  constructor
  · rintro ⟨_, ⟨slot, ⟨r', d⟩, hs, rfl⟩, hx⟩
    split at hx
    · next hf =>
      cases hx
      refine ⟨slot, d, hs, ?_⟩
      cases d with
      | true => exact .inl rfl
      | false => exact .inr (by simpa [rowsetRow, loadTableRow, hp] using hf)
    · cases hx
  · rintro ⟨slot, d, hs, hd⟩
    refine ⟨_, ⟨slot, _, hs, rfl⟩, ?_⟩
    rcases hd with rfl | hd
    · rfl
    · cases d <;> simp [rowsetRow, loadTableRow, hp, hd]

theorem ups_get? {q : Rowid × Row} (hq : q ∈ (tableRowset db p name).ups) :
    (db name).get? q.1 = some q.2 :=
  ((mem_ups_iff hp).mp hq).2

theorem mem_ups_fst_iff (db : S.Db) (p : Pending) (r : Rowid) :
    r ∈ (tableRowset db p name).ups.map Prod.fst ↔
      (∃ slot, p.entry name slot = some (r, false)) ∧ (db name).get? r ≠ none := by
  rw [List.mem_map, ne_none_iff_exists']
  constructor
  · rintro ⟨⟨_, x⟩, hq, rfl⟩
    obtain ⟨hs, hx⟩ := (mem_ups_iff hp).mp hq
    exact ⟨hs, x, hx⟩
  · rintro ⟨hs, x, hx⟩
    exact ⟨(r, x), (mem_ups_iff hp).mpr ⟨hs, hx⟩, rfl⟩

end Entries

/-! ## 2 つの table が同じになる条件 -/

section Conveyed

variable {name : Bytes} {t₀ t₁ : S.Table name} {p : Pending}

/-- 行 `r` は消え、その鍵は最後の table の行が持っている -/
def Yielded (t₀ t₁ : S.Table name) (r : Rowid) : Prop :=
  t₁.get? r = none ∧ ∃ a, t₀.get? r = some a ∧ ∃ r' b, t₁.get? r' = some b ∧ Clash (S.key name) b a

/-- `p` に行 `r` の entry がある。`d` は DELETE の entry かどうか。 -/
def Pending.Records (p : Pending) (name : Bytes) (r : Rowid) (d : Bool) : Prop :=
  ∃ slot, p.entry name slot = some (r, d)

/-- `calls` のうち同じ鍵のものの最後が行 `r` についてのものである。`d` はそれが DELETE か。 -/
def Recorded (heap : Nat → Bytes) (calls : List Call) (name : Bytes) (r : Rowid) (d : Bool) : Prop :=
  ∃ slot x, lastTouch (touches heap 0 calls) name slot = some x ∧ x.1.rowid = r ∧
    (x.1.op == .delete) = d

variable {calls : List Call} {db₀ db₁ : S.Db}

theorem records_hooks {n : Nat} {heap : Nat → Bytes} :
    ((Repctx.create false n heap).hooks calls).pending.Records name = Recorded heap calls name := by
  funext r d
  exact propext (exists_congr fun slot => entry_eq_some_iff)

/-- 記録 `rec` は `t₀` から `t₁` への変化を伝える。どの行も、DELETE でない記録があるか、DELETE の記録があって無いか、
記録が無くて変わらないか鍵を譲って消えている。 -/
def Conveyed (t₀ t₁ : S.Table name) (rec : Rowid → Bool → Prop) : Prop :=
  ∀ r, rec r false ∨ (rec r true ∧ t₁.get? r = none) ∨
    ((∀ d, ¬rec r d) ∧ (t₁.get? r = t₀.get? r ∨ Yielded t₀ t₁ r))

/-- table `name` の変更は slave の文に書ける。内容を送る行があれば、列の名前も文に書ける。 -/
def Writable (db : S.Db) (name : Bytes) (rec : Rowid → Bool → Prop) : Prop :=
  tableNameCheck name = none ∧ S.prepares name = true ∧
    ((∃ r, rec r false ∧ (db name).get? r ≠ none) → S.replaces name (S.columns name) = true)

theorem any_fields_iff {db : S.Db} (hp : S.prepares name = true) :
    (tableRowset db p name).rows.any (·.fields.isSome) = true ↔
      ∃ r, p.Records name r false ∧ (db name).get? r ≠ none := by
  rw [List.any_eq_true]
  constructor
  · rintro ⟨row, hrow, hf⟩
    obtain ⟨x, hx⟩ := isSome_iff_exists.mp hf
    have hup : (row.rowid, x) ∈ (tableRowset db p name).ups :=
      mem_filterMap.mpr ⟨row, hrow, by rw [hx]; rfl⟩
    obtain ⟨hs, hget⟩ := (mem_ups_iff hp).mp hup
    exact ⟨row.rowid, hs, by rw [hget]; exact some_ne_none x⟩
  · rintro ⟨r, hs, hget⟩
    obtain ⟨x, hx⟩ := ne_none_iff_exists'.mp hget
    obtain ⟨row, hrow, hf⟩ := mem_filterMap.mp ((mem_ups_iff hp).mpr ⟨hs, hx⟩)
    obtain ⟨y, hy, -⟩ := map_eq_some_iff.mp hf
    exact ⟨row, hrow, by rw [hy]; rfl⟩

/-- **table の適用の準備ができるのは変更が文に書けるときである。** -/
theorem fits_tableRowset_iff {db : S.Db} :
    (tableRowset db p name).Fits S ↔ Writable db name (p.Records name) := by
  have hheader : (tableRowset db p name).header =
      loadTableHeader S name (tableRowset db p name).rows := rfl
  refine and_congr_right fun _ => ?_
  rw [hheader, loadTableHeader, show (tableRowset db p name).name = name from rfl]
  constructor
  · intro h
    have hp := S.prepares_of_replaces _ _ h
    refine ⟨hp, fun hrow => ?_⟩
    rwa [if_pos ((any_fields_iff hp).mpr hrow)] at h
  · rintro ⟨hp, hcols⟩
    split
    · next hany => exact hcols ((any_fields_iff hp).mp hany)
    · exact S.replaces_nil _ hp

theorem applyDiff_rowset_iff {db : S.Db} (hp : S.prepares name = true) :
    t₀.applyDiff (tableRowset db p name).dels (tableRowset db p name).ups = db name ↔
      Conveyed t₀ (db name) (p.Records name) := by
  rw [KeyedTable.applyDiff_eq_iff fun q hq => ups_get? hp hq]
  refine forall_congr' fun r => ?_
  have hdels := mem_dels_iff hp db p r
  rw [mem_ups_fst_iff hp]
  by_cases hlive : p.Records name r false
  · -- DELETE でない記録のある行は、必ず伝わる
    refine iff_of_true (fun hn => ?_) (.inl hlive)
    have hnone : (db name).get? r = none := by
      by_contra hne
      exact hn ⟨hlive, hne⟩
    obtain ⟨slot, hs⟩ := hlive
    rw [if_pos (hdels.mpr ⟨slot, false, hs, .inr hnone⟩)]
    exact hnone
  by_cases hdel : p.Records name r true
  · rw [if_pos (hdels.mpr (hdel.imp fun slot hs => ⟨true, hs, .inl rfl⟩))]
    constructor
    · exact fun h => .inr (.inl ⟨hdel, h fun hn => hlive hn.1⟩)
    · rintro (h | h | h) -
      · exact absurd h hlive
      · exact h.2
      · exact absurd hdel (h.1 true)
  have hno : ∀ d, ¬p.Records name r d := by
    rintro (_ | _)
    · exact hlive
    · exact hdel
  rw [if_neg fun hm => (hdels.mp hm).elim fun slot ⟨d, hs, _⟩ => hno d ⟨slot, hs⟩]
  constructor
  · exact fun h => .inr (.inr ⟨hno, h fun hn => hlive hn.1⟩)
  · rintro (h | h | h) -
    · exact absurd h hlive
    · exact absurd h.1 hdel
    · exact h.2

theorem Exact.records_iff {r : Rowid} {d : Bool} (he : Exact calls p) :
    p.Records name r d ↔ lastDeleted calls name r = some d := by
  constructor
  · rintro ⟨slot, hs⟩
    exact he.1 _ _ _ _ hs
  · intro hl
    obtain ⟨slot, ⟨d', hs⟩, -⟩ := he.2 _ _ _ hl
    cases hl.symm.trans (he.1 _ _ _ _ hs)
    exact ⟨slot, hs⟩

theorem conveyed_iff_of_exact (hf : Follows db₀ calls db₁) (he : Exact calls p) (name : Bytes) :
    Conveyed (db₀ name) (db₁ name) (p.Records name) ↔
      ∀ r a, lastDeleted calls name r = none → (db₀ name).get? r = some a →
        (db₁ name).get? r = none → ∃ r' b, (db₁ name).get? r' = some b ∧ Clash (S.key name) b a := by
  constructor
  · intro h r a hr h0 h1
    rcases h r with ⟨slot, hs⟩ | ⟨⟨slot, hs⟩, -⟩ | ⟨-, heq | ⟨-, a', ha', hc⟩⟩
    · rw [he.1 _ _ _ _ hs] at hr; cases hr
    · rw [he.1 _ _ _ _ hs] at hr; cases hr
    · rw [h1, h0] at heq; cases heq
    · rw [h0] at ha'
      cases ha'
      exact hc
  · intro h r
    cases hl : lastDeleted calls name r with
    | none =>
      refine .inr (.inr ⟨fun d ⟨slot, hs⟩ => ?_, ?_⟩)
      · rw [he.1 _ _ _ _ hs] at hl; cases hl
      rcases hf.untouched name r hl with heq | hnone
      · exact .inl heq
      cases h0 : (db₀ name).get? r with
      | none => exact .inl hnone
      | some a => exact .inr ⟨hnone, a, h0, h r a hl h0 hnone⟩
    | some d =>
      obtain ⟨slot, ⟨d', hs⟩, -⟩ := he.2 name r d hl
      have hd := he.1 _ _ _ _ hs
      rw [hl] at hd
      cases hd
      cases d with
      | false => exact .inl ⟨slot, hs⟩
      | true => exact .inr (.inl ⟨⟨slot, hs⟩, hf.deleted name r hl⟩)

theorem lastDeleted_of_notMem {r : Rowid} (he : Exact calls p) (hp : S.prepares name = true)
    (hd : r ∉ (tableRowset db₁ p name).dels) (hu : r ∉ (tableRowset db₁ p name).ups.map Prod.fst) :
    lastDeleted calls name r = none := by
  by_contra hne
  obtain ⟨d, hl⟩ := ne_none_iff_exists'.mp hne
  obtain ⟨slot, ⟨d', hslot⟩, -⟩ := he.2 _ _ _ hl
  by_cases hget : (db₁ name).get? r = none
  · exact hd ((mem_dels_iff hp db₁ p r).mpr ⟨slot, d', hslot, .inr hget⟩)
  cases d' with
  | true => exact hd ((mem_dels_iff hp db₁ p r).mpr ⟨slot, true, hslot, .inl rfl⟩)
  | false => exact hu ((mem_ups_fst_iff hp db₁ p r).mpr ⟨⟨slot, hslot⟩, hget⟩)

variable (hf : Follows db₀ calls db₁) (he : Exact calls p) (hp : S.prepares name = true)
include hf he hp

theorem get?_of_mem_dels {r : Rowid} (hr : r ∈ (tableRowset db₁ p name).dels) :
    (db₁ name).get? r = none := by
  obtain ⟨slot, d, hslot, rfl | hget⟩ := (mem_dels_iff hp db₁ p r).mp hr
  · exact hf.deleted _ _ (he.1 _ _ _ _ hslot)
  · exact hget

theorem get?_of_notMem_ups {r : Rowid} {a : Row} (h1 : (db₁ name).get? r = some a)
    (hu : r ∉ (tableRowset db₁ p name).ups.map Prod.fst) : (db₀ name).get? r = some a := by
  have hd : r ∉ (tableRowset db₁ p name).dels := fun hd => by
    rw [get?_of_mem_dels hf he hp hd] at h1; cases h1
  rcases hf.untouched _ _ (lastDeleted_of_notMem he hp hd hu) with h0 | h0
  · exact h0.symm.trans h1
  · rw [h0] at h1; cases h1

end Conveyed

/-! ## rowset 全体の適用 -/

theorem replicateNow_ok : ∀ (ts : List RowsetTable) {db db' : S.Db},
    replicateNow env ts db = (none, db') → ts.Pairwise (fun t t' => t.name ≠ t'.name) →
      (∀ t ∈ ts, t.Fits S ∧ db' t.name = (db t.name).applyDiff t.dels t.ups) ∧
      ∀ name, (∀ t ∈ ts, t.name ≠ name) → db' name = db name
  | [], db, db', h, _ => by
    cases h
    exact ⟨fun t ht => absurd ht not_mem_nil, fun _ _ => rfl⟩
  | t :: ts, db, db', h, hd => by
    obtain ⟨hne, hd⟩ := pairwise_cons.mp hd
    simp only [replicateNow] at h
    split at h
    · cases h
    rename_i db₁ ht
    obtain ⟨hfits, hdb⟩ := replicateTable_ok ht
    obtain ⟨hmem, hrest⟩ := replicateNow_ok ts h hd
    refine ⟨fun u hu => ?_, fun name hname => ?_⟩
    · rcases mem_cons.mp hu with rfl | hu
      · refine ⟨hfits, ?_⟩
        rw [hrest _ fun v hv => (hne v hv).symm, hdb, Schema.Db.set_self]
      obtain ⟨hfits', hu'⟩ := hmem u hu
      refine ⟨hfits', ?_⟩
      rw [hu', hdb, Schema.Db.set_other _ _ (hne u hu).symm]
    · rw [hrest name fun v hv => hname v (mem_cons_of_mem _ hv), hdb,
        Schema.Db.set_other _ _ (hname t mem_cons_self).symm]

theorem replicateNow_clean (hs : ∀ name r, env.step name r = none) :
    ∀ (ts : List RowsetTable) (db : S.Db), (∀ t ∈ ts, t.Fits S) →
      (replicateNow env ts db).1 = none
  | [], _, _ => rfl
  | t :: ts, db, h => by
    rw [replicateNow, replicateTable_clean (hs t.name) (h t mem_cons_self)]
    exact replicateNow_clean hs ts _ fun u hu => h u (mem_cons_of_mem _ hu)

variable {p : Pending} {mdb : S.Db}

theorem rowset_pairwise (hp : p.Named) (mdb : S.Db) :
    (contextPendingToRowset mdb p).Pairwise fun t t' => t.name ≠ t'.name := by
  rw [contextPendingToRowset, pairwise_map]
  refine (pairwise_ne_toList p).imp_of_mem fun {a b} ha hb hne he => hne ?_
  have ha := (hp _ _ (mem_toList_iff_getElem?_eq_some.mp ha)).1
  have hb := (hp _ _ (mem_toList_iff_getElem?_eq_some.mp hb)).1
  rw [ha, hb, show a.1.s = b.1.s from he]

/-- **rowset の適用の table ごとの結果。** -/
theorem replicateNow_rowset (hp : p.Named)
    (h : replicateNow env (contextPendingToRowset mdb p) db = (none, db')) (name : Bytes) :
    db' name = (db name).applyDiff (tableRowset mdb p name).dels (tableRowset mdb p name).ups := by
  obtain ⟨hmem, hrest⟩ := replicateNow_ok _ h (rowset_pairwise hp mdb)
  cases hk : p[Hashstr.create name]? with
  | some rows =>
    have ht : tableRowset mdb p name = rowsetTable mdb name rows := by
      rw [tableRowset, contextGetPendingTable, hk, getD_some]
    rw [ht]
    refine (hmem (rowsetTable mdb name rows) ?_).2
    exact mem_map.mpr ⟨(Hashstr.create name, rows), mem_toList_iff_getElem?_eq_some.mpr hk, rfl⟩
  | none =>
    have ht : tableRowset mdb p name = ⟨name, [], []⟩ := by
      rw [tableRowset, contextGetPendingTable, hk]
      rfl
    rw [ht]
    refine hrest name fun t ht he => ?_
    obtain ⟨k, rows, hk', rfl⟩ := mem_rowset ht
    rw [(hp k rows hk').1, show k.s = name from he, hk] at hk'
    cases hk'

theorem isSome_pending_hooks (calls : List Call) : ∀ ctx : Repctx, ctx.hollow = false →
    ctx.huge = false → ∀ k : Hashstr, (ctx.hooks calls).pending[k]?.isSome ↔
      ctx.pending[k]?.isSome ∨ ∃ c ∈ calls, Hashstr.create c.fullName = k := by
  induction calls with
  | nil => simp [Repctx.hooks]
  | cons c cs ih =>
    intro ctx hh hg k
    obtain ⟨h1, h2, -⟩ := hookUpdate_frame ctx c.op c.bn c.tn c.rowid
    have hstep : (hookUpdate ctx c.op c.bn c.tn c.rowid).pending[k]?.isSome ↔
        Hashstr.create c.fullName = k ∨ ctx.pending[k]?.isSome := by
      simp only [hookUpdate, hh, hg, Bool.or_false, Bool.false_eq_true, if_false,
        ExtTreeMap.getElem?_insert, Hashstr.quickCmp_eq_eq]
      rw [show fullName c.bn c.tn = c.fullName from rfl]
      split
      · next he => simp [he]
      · next he => simp [he]
    refine (ih _ (h1.trans hh) (h2.trans hg) k).trans ?_
    simp only [mem_cons, exists_eq_or_imp]
    tauto

section Hooks

variable {calls : List Call} {heap : Nat → Bytes} {k : Nat}

theorem named_create : ((Repctx.create false k heap).hooks calls).pending.Named :=
  named_hooks calls _ fun h rows hk => by simp [Repctx.create] at hk

/-- rowset の table は hook の呼ばれた table である -/
theorem forall_rowset_iff {P : RowsetTable → Prop} :
    (∀ t ∈ contextPendingToRowset mdb ((Repctx.create false k heap).hooks calls).pending, P t) ↔
      ∀ c ∈ calls, P (tableRowset mdb ((Repctx.create false k heap).hooks calls).pending
        c.fullName) := by
  have hiff := isSome_pending_hooks calls (Repctx.create false k heap) rfl rfl
  generalize hq : ((Repctx.create false k heap).hooks calls).pending = q at hiff
  have hnamed : q.Named := hq ▸ named_create
  have htable : ∀ {h : Hashstr} {rows : Subtree}, q[h]? = some rows →
      rowsetTable mdb h.s rows = tableRowset mdb q h.s := by
    intro h rows hk
    rw [tableRowset, contextGetPendingTable, ← (hnamed h rows hk).1, hk, getD_some]
  constructor
  · intro hall c hc
    obtain ⟨rows, hrows⟩ := isSome_iff_exists.mp ((hiff _).mpr (.inr ⟨c, hc, rfl⟩))
    have := hall _ (mem_map.mpr ⟨_, mem_toList_iff_getElem?_eq_some.mpr hrows, rfl⟩)
    rwa [htable hrows] at this
  · intro hall t ht
    obtain ⟨h, rows, hk, rfl⟩ := mem_rowset ht
    rw [htable hk]
    rcases (hiff h).mp (by rw [hk]; rfl) with hemp | ⟨c, hc, rfl⟩
    · simp [Repctx.create] at hemp
    · exact hall c hc

/-- **rowset を適用できるのは hook の呼ばれた table の変更がどれも文に書けるときである。** -/
theorem fits_rowset_iff :
    (∀ t ∈ contextPendingToRowset mdb ((Repctx.create false k heap).hooks calls).pending, t.Fits S) ↔
      ∀ c ∈ calls, Writable mdb c.fullName (Recorded heap calls c.fullName) := by
  rw [forall_rowset_iff]
  refine forall₂_congr fun c _ => ?_
  rw [fits_tableRowset_iff, records_hooks]

theorem applyDiff_hooks_iff {t₀ : S.Table name}
    (hfits : ∀ c ∈ calls, Writable mdb c.fullName (Recorded heap calls c.fullName)) :
    t₀.applyDiff
        (tableRowset mdb ((Repctx.create false k heap).hooks calls).pending name).dels
        (tableRowset mdb ((Repctx.create false k heap).hooks calls).pending name).ups = mdb name ↔
      Conveyed t₀ (mdb name) (Recorded heap calls name) := by
  rw [← records_hooks (n := k)]
  have hiff := isSome_pending_hooks calls (Repctx.create false k heap) rfl rfl (Hashstr.create name)
  cases hk : ((Repctx.create false k heap).hooks calls).pending[Hashstr.create name]? with
  | some rows =>
    rw [hk] at hiff
    rcases hiff.mp rfl with hemp | ⟨c, hc, he⟩
    · simp [Repctx.create] at hemp
    · exact applyDiff_rowset_iff (Hashstr.create_inj he ▸ (hfits c hc).2.1)
  | none =>
    -- 触れていない table では、rowset は空
    have hnil : contextGetPendingTable ((Repctx.create false k heap).hooks calls).pending
        (Hashstr.create name) = ∅ := by rw [contextGetPendingTable, hk]; rfl
    have hno : ∀ r d, ¬((Repctx.create false k heap).hooks calls).pending.Records name r d := by
      rintro r d ⟨slot, hs⟩
      rw [Pending.entry, hnil] at hs
      simp at hs
    have ht : tableRowset mdb ((Repctx.create false k heap).hooks calls).pending name =
        ⟨name, [], []⟩ := by
      rw [tableRowset, hnil]
      rfl
    rw [ht]
    refine (KeyedTable.applyDiff_eq_iff fun q hq => absurd hq not_mem_nil).trans ?_
    refine forall_congr' fun r => ?_
    simp only [RowsetTable.dels, filterMap_nil, map_nil, not_mem_nil, if_false,
      not_false_eq_true, forall_const, hno, false_and, false_or, true_and]
    rfl

end Hooks

def demoSchema : Schema where
  tables := [ascii "admin", ascii "t"]
  userKey _ row := row.head?.map ([·])
  prepares _ := true
  columns name := if name = adminName then [ascii "k", ascii "v"] else [ascii "k"]
  replaces _ _ := true
  realText _ := []
  prepares_of_replaces _ _ _ := rfl
  replaces_nil _ _ := rfl
  replaces_admin := rfl
  admin_mem := by simp

def demoBase : Sq3 demoSchema where
  db := Schema.Db.set (fun _ => KeyedTable.empty) (ascii "main.t")
    (KeyedTable.empty.replaceInto 1 [.int 7])
  admin := ∅
  ctx := Repctx.create false 0 fun _ => []
  total := 0
  warned := false
  saved := none

/-- 行 1 の鍵を 8 に変え、空いた鍵 7 で行 2 を加える transaction -/
def shiftStmts : List Stmt :=
  [.rows (ascii "t") [.update 1 1 [.int 8]], .rows (ascii "t") [.insert 2 [.int 7]]]

/-- 行 2 が鍵 7 で行 1 を置き換え、消される transaction -/
def replaceStmts : List Stmt :=
  [.rows (ascii "t") [.replace 2 [.int 7]], .rows (ascii "t") [.delete 2]]

end Redcurrant.Sqliterepo
