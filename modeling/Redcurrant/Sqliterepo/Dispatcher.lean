import Redcurrant.Sqliterepo.Admin
import Redcurrant.Sqliterepo.Rowset

/-!
# REPLICATE の受信

`replicate_body_manage`。rowset を適用し、version が期待値に合えば COMMIT する。失敗した COMMIT の後には ROLLBACK が無い
（`error_keeps_base_iff`）。
-/

namespace Redcurrant.Sqliterepo

open Infra Metautils Std

variable {S : Schema}

def versionExtractFromAdmin (sq3 : Sq3 S) : VersionTree := versionExtractFromAdminTree sq3.admin

/-- schema の違いによる error は `CODE_PIPETO` に変える -/
def schemaError (e : GError) : GError :=
  if e.code = sqliteError ∨ e.code = sqliteSchema then
    { e.prefixed "Schema error: " with code := codePipeto }
  else e

/-- 適用後の version の検査。差が 1 のときは error にならないが、`worst` が残る。 -/
def replicateCheck (post expected : VersionTree) : Option GError :=
  match versionValidateDiff post expected with
  | (some e, _) => some e
  | (none, worst) =>
    if worst ≠ 0 then some ⟨codeConcurrent, "Concurrent change detected"⟩ else none

/-- `replicate_body_manage`。COMMIT が失敗すると ROLLBACK せず、開いたままになる。 -/
def replicateBodyManage (env : SqlEnv) (sq3 : Sq3 S) :
    Option (List RowsetTable) → Option GError × Sq3 S
  | none => (some ⟨400, "Invalid tables sequence"⟩, sq3)
  | some [] => (none, sq3)
  | some (t :: ts) =>
    let expected := versionExtractExpected (versionExtractFromAdmin sq3)
      ((t :: ts).map RowsetTable.name)
    let tnx := sq3.execBegin
    match replicateNow env (t :: ts) tnx.db with
    | (some e, _) => (some (schemaError e), adminReload tnx.execRollback)
    | (none, db) =>
      let post := adminReload { tnx with db := db }
      match replicateCheck (versionExtractFromAdmin post) expected with
      | some e => (some e, adminReload tnx.execRollback)
      | none =>
        match env.commit with
        | some rc => (some ((sqliteGerror env rc).prefixed "COMMIT failed: "), adminReload post)
        | none => (none, { post with saved := none })

/-! ## 受け入れの条件 -/

/-- 適用後の version `post` は `old` と名指された table から求めた期待値に合う -/
def Expected (old post : VersionTree) (names : List Bytes) : Prop :=
  ∀ (k : Hashstr) (o e : ObjectVersion), post[k]? = some o →
    (versionExtractExpected old names)[k]? = some e → o.version = e.version

variable {env : SqlEnv} {x y : Sq3 S} {seq : List RowsetTable}

theorem versions_bounds {k : Hashstr} {o : ObjectVersion}
    (h : (versionExtractFromAdmin x)[k]? = some o) : -2 ^ 31 ≤ o.version ∧ o.version < 2 ^ 31 := by
  obtain ⟨_, _, -, -, ho⟩ := versionExtractFromAdminTree_eq_some.mp h
  exact parseVersion_bounds ho

theorem diffsFit_expected (names : List Bytes) : DiffsFit (versionExtractFromAdmin y)
    (versionExtractExpected (versionExtractFromAdmin x) names) := by
  intro k o e ho he
  have hb := versions_bounds ho
  rw [versionExtractExpected_getElem?] at he
  split at he
  · cases hold : (versionExtractFromAdmin x)[k]? with
    | none =>
      rw [hold] at he
      cases he
      simp only [Option.getD_none, initialVersion]
      omega
    | some o' =>
      have hb' := versions_bounds hold
      rw [hold] at he
      cases he
      simp only [Option.getD_some]
      omega
  · have hb' := versions_bounds he
    omega

theorem replicateCheck_eq_none_iff {names : List Bytes} : replicateCheck (versionExtractFromAdmin y)
      (versionExtractExpected (versionExtractFromAdmin x) names) = none ↔
    Expected (versionExtractFromAdmin x) (versionExtractFromAdmin y) names := by
  rw [Expected, ← versionValidateDiff_accepts_iff (diffsFit_expected names), replicateCheck]
  split
  · next h => simp [h]
  · next h => simp [h]

/-- message の適用が `db` になり、version が期待値に合う -/
def Lands (env : SqlEnv) (x : Sq3 S) (seq : List RowsetTable) (db : S.Db) : Prop :=
  replicateNow env seq x.db = (none, db) ∧
    Expected (versionExtractFromAdmin x) (versionExtractFromAdmin (adminReload { x with db := db }))
      (seq.map RowsetTable.name)

theorem reload_execBegin (x : Sq3 S) (db : S.Db) : adminReload { x.execBegin with db := db } =
    { adminReload { x with db := db } with saved := x.execBegin.saved } :=
  adminReload_saved { x with db := db } x.execBegin.saved

theorem replicateBodyManage_of_lands {db : S.Db} (hne : seq ≠ []) (h : Lands env x seq db) :
    replicateBodyManage env x (some seq) = match env.commit with
      | some rc => (some ((sqliteGerror env rc).prefixed "COMMIT failed: "),
        adminReload (adminReload { x.execBegin with db := db }))
      | none => (none, adminReload { x with db := db, saved := none }) := by
  obtain ⟨t, ts, rfl⟩ := List.exists_cons_of_ne_nil hne
  have hnow : replicateNow env (t :: ts) x.execBegin.db = (none, db) := h.1
  have hcheck : replicateCheck (versionExtractFromAdmin (adminReload { x.execBegin with db := db }))
      (versionExtractExpected (versionExtractFromAdmin x) ((t :: ts).map RowsetTable.name)) =
        none := by
    rw [replicateCheck_eq_none_iff, reload_execBegin]
    exact h.2
  simp only [replicateBodyManage, hnow, hcheck]
  cases env.commit with
  | some rc => rfl
  | none => rw [reload_execBegin, adminReload_saved { x with db := db } none]

theorem replicateBodyManage_of_not_lands (hne : seq ≠ []) (h : ∀ db, ¬Lands env x seq db) :
    ∃ e, replicateBodyManage env x (some seq) = (some e, adminReload x.execBegin.execRollback) := by
  obtain ⟨t, ts, rfl⟩ := List.exists_cons_of_ne_nil hne
  simp only [replicateBodyManage]
  split
  · exact ⟨_, rfl⟩
  rename_i db hdb
  split
  · exact ⟨_, rfl⟩
  · next hcheck =>
    rw [replicateCheck_eq_none_iff, reload_execBegin] at hcheck
    exact absurd ⟨hdb, hcheck⟩ (h db)

/-- **受け入れた slave は rowset を適用して admin table を読み直したものになる。** -/
theorem replicateBodyManage_ok (hne : seq ≠ [])
    (h : replicateBodyManage env x (some seq) = (none, y)) :
    ∃ db, Lands env x seq db ∧ y = adminReload { x with db := db, saved := none } := by
  by_cases hlands : ∃ db, Lands env x seq db
  · obtain ⟨db, hdb⟩ := hlands
    rw [replicateBodyManage_of_lands hne hdb] at h
    cases hc : env.commit <;> rw [hc] at h <;> cases h
    exact ⟨db, hdb, rfl⟩
  obtain ⟨e, he⟩ := replicateBodyManage_of_not_lands hne (not_exists.mp hlands)
  rw [he] at h
  cases h

/-- **名指されない table の version は、持ち続けるなら変わらない。** -/
theorem Expected.unnamed {old post : VersionTree} {names : List Bytes} (h : Expected old post names)
    {k : Hashstr} {o e : ObjectVersion} (hk : ∀ n ∈ names, Hashstr.printfLen n ≠ k)
    (hold : old[k]? = some e) (hpost : post[k]? = some o) : o.version = e.version := by
  refine h k o e hpost ?_
  rw [versionExtractExpected_getElem?, if_neg]
  · exact hold
  · rintro ⟨n, hn, -, he⟩
    exact hk n hn he

/-! ## error の後の base -/

/-- 2 つの base は table の内容と cache が同じ -/
def Sq3.SameAs (x y : Sq3 S) : Prop := y.db = x.db ∧ y.admin = x.admin

theorem execRollback_execBegin (h : x.saved = none) : x.execBegin.execRollback = x := by
  obtain ⟨db, admin, ctx, total, warned, saved⟩ := x
  cases h
  rfl

/-- ROLLBACK で戻る内容 -/
def Sq3.restored (x : Sq3 S) : S.Db := x.saved.getD x.db

/-- 内容 `db` には version の行がそろっている -/
def Versioned (db : S.Db) : Prop := ∀ tn ∈ S.tables, (adminLoadFromTable db)[versionKey tn]?.isSome

theorem Sq3.Opened.versioned_db (h : x.Opened) : Versioned x.db := fun tn htn =>
  h.cached ▸ h.versioned tn htn

theorem sameAs_rollback_iff (hx : x.Opened) (h : Versioned x.restored) :
    x.SameAs (adminReload x.execBegin.execRollback) ↔ x.restored = x.db := by
  have hdb : x.execBegin.execRollback.db = x.restored := by
    show (x.saved.or (some x.db)).getD x.db = x.saved.getD x.db
    cases x.saved <;> rfl
  rw [adminReload_eq (by rw [hdb]; exact h)]
  show x.execBegin.execRollback.db = x.db ∧ adminLoadFromTable x.execBegin.execRollback.db = x.admin ↔ _
  rw [hdb, and_iff_left_iff_imp]
  rintro he
  rw [he]
  exact hx.cached.symm

/-- 同じ byte 列に読まれる、型の違う値 -/
def Schema.retype (S : Schema) (w : Value) : Value :=
  if w = .blob (S.valueBytes w) then .text (S.valueBytes w) else .blob (S.valueBytes w)

theorem Schema.retype_spec (w : Value) : S.retype w ≠ w ∧ S.valueBytes (S.retype w) = S.valueBytes w := by
  unfold retype
  split
  · next h =>
    refine ⟨fun he => ?_, rfl⟩
    rw [h] at he
    cases he
  · next h => exact ⟨fun he => h he.symm, rfl⟩

/-- admin table の行を、同じ鍵と値に読まれる行に替えても、cache は変わらない -/
theorem adminLoadFromTable_retype {db : S.Db} {r : Rowid} {row row' : Row} {k v : Bytes}
    (hr : (db adminName).get? r = some row) (hrow : S.adminKv row = some (k, v))
    (hrow' : S.adminKv row' = some (k, v)) :
    adminLoadFromTable (db.set adminName ((db adminName).replaceInto r row')) =
      adminLoadFromTable db := by
  refine ExtTreeMap.ext_getElem? fun k' => Option.ext fun v' => ?_
  rw [adminLoadFromTable_eq_some, adminLoadFromTable_eq_some, Schema.Db.set_self]
  simp only [KeyedTable.get?_replaceInto]
  constructor
  · rintro ⟨r', a, hget, hkv⟩
    split at hget
    · cases hget
      exact ⟨r, row, hr, hrow.trans (hrow'.symm.trans hkv)⟩
    · exact ⟨r', a, (Option.filter_eq_some_iff.mp hget).1, hkv⟩
  · rintro ⟨r', a, hget, hkv⟩
    by_cases hne : r' = r
    · subst hne
      rw [hr] at hget
      cases hget
      exact ⟨r', row', if_pos rfl, hrow'.trans (hrow.symm.trans hkv)⟩
    refine ⟨r', a, ?_, hkv⟩
    rw [if_neg hne, Option.filter_eq_some_iff]
    refine ⟨hget, ?_⟩
    have hclash : ¬Clash (S.key adminName) row' a := fun hc =>
      hne (KeyedTable.unique' hget hr ((Schema.clash_iff_of_adminKv hkv hrow).mpr
        ((Schema.clash_iff_of_adminKv hrow' hkv).mp hc).symm))
    simpa using hclash

/-- **開いた base には、受け入れられて行を変える message がある。** -/
theorem exists_lands (hx : x.Opened) (hstep : ∀ name r, env.step name r = none) :
    ∃ seq db, seq ≠ [] ∧ Lands env x seq db ∧ db ≠ x.db ∧ adminLoadFromTable db = x.admin := by
  obtain ⟨b, hb⟩ := Option.isSome_iff_exists.mp (hx.versioned _ S.admin_mem)
  rw [hx.cached, adminLoadFromTable_eq_some] at hb
  obtain ⟨r, row, hr, hkv⟩ := hb
  obtain ⟨w, rest, rfl, hw⟩ := Schema.adminKv_eq_some.mp hkv
  obtain ⟨hne, hbytes⟩ := Schema.retype_spec (S := S) w
  -- version の行の値を、型だけ変えて書く
  let row' : Row := .text (versionKey (ascii "admin")) :: S.retype w :: rest
  let db : S.Db := x.db.set adminName ((x.db adminName).replaceInto r row')
  have hload : adminLoadFromTable db = x.admin := by
    rw [hx.cached]
    exact adminLoadFromTable_retype hr hkv
      (Schema.adminKv_eq_some.mpr ⟨_, rest, rfl, hbytes.trans hw⟩)
  let u : RowsetTable := ⟨adminName, S.columns adminName, [⟨r, some row'⟩]⟩
  have happ : replicateNow env [u] x.db = (none, db) := by
    rw [replicateNow, replicateTable_clean (hstep _) ⟨(by decide : tableNameCheck adminName = none), S.replaces_admin⟩]
    rfl
  refine ⟨[u], db, List.cons_ne_nil _ _, ⟨happ, ?_⟩, fun he => ?_, hload⟩
  · have hsame : adminReload { x with db := db } = { x with db := db } :=
      Sq3.Opened.adminReload_eq_self (x := { x with db := db }) ⟨hload.symm, hx.versioned⟩
    intro k o e ho he
    rw [hsame] at ho
    rw [versionExtractExpected_getElem?, if_neg] at he
    · exact congrArg ObjectVersion.version (Option.some.inj (ho.symm.trans he))
    · rintro ⟨n, hn, hd, -⟩
      rw [List.mem_singleton.mp hn] at hd
      exact absurd hd (by decide : ¬isAdminInDiff adminName = false)
  · have hget : (db adminName).get? r = some row' := by
      show (Schema.Db.set x.db adminName _ adminName).get? r = some row'
      rw [Schema.Db.set_self, KeyedTable.get?_replaceInto, if_pos rfl]
    rw [he, hr] at hget
    exact hne (List.cons.inj (List.cons.inj (Option.some.inj hget)).2).1.symm

/-- table `tn` の version の値が `v` で、`tn` に行の無い内容 -/
def storeDb (S : Schema) (tn v : Bytes) : S.Db :=
  Schema.Db.set (fun _ => KeyedTable.empty) adminName
    ((KeyedTable.empty.replaceInto 1 (adminRow (versionKey (ascii "admin")) (ascii "1:0"))).replaceInto 2
      (adminRow (versionKey tn) v))

def storeBase (S : Schema) (tn v : Bytes) : Sq3 S :=
  ⟨storeDb S tn v, adminLoadFromTable (storeDb S tn v), .idle, 0, false, none⟩

def base5 : Sq3 demoSchema := storeBase demoSchema (ascii "t") (ascii "5:0")

theorem opened_base5 : base5.Opened := ⟨rfl, by decide +kernel⟩

def busyEnv : SqlEnv := { SqlEnv.clean with commit := some 5 }

def insertedRow : List RowsetTable :=
  [⟨mainName (ascii "t"), [ascii "k"], [⟨1, some [.int 7]⟩]⟩,
    ⟨adminName, [ascii "k", ascii "v"], [⟨2, some (adminRow (versionKey (ascii "t")) (ascii "6:0"))⟩]⟩]

end Redcurrant.Sqliterepo
