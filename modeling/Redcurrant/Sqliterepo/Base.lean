import Redcurrant.Sqliterepo.Pending
import Redcurrant.Sqliterepo.Version

/-!
# 開いている base

`struct sqlx_sqlite3_s`。table の内容、admin table の cache、replication の context と、文の実行。
-/

namespace Redcurrant.Sqliterepo

open Infra Metautils Std Option List KeyedTable

variable {S : Schema}

/-! ## 文の実行 -/

/-- `struct sqlx_sqlite3_s`。`total` は `sqlite3_total_changes`、`warned` は admin table への書き込みの失敗、
`saved` は ROLLBACK で戻る内容。 -/
structure Sq3 (S : Schema) where
  db : S.Db
  admin : AdminTree
  ctx : Repctx
  total : Nat
  warned : Bool
  saved : Option S.Db

/-- hook の登録されていない base の context -/
def Repctx.idle : Repctx := .create true 0 fun _ => []

variable (sq3 : Sq3 S)

/-- `BEGIN`。開いていれば SQLite は断るが、返り値は調べられない。 -/
def Sq3.execBegin : Sq3 S := { sq3 with saved := sq3.saved.or (some sq3.db) }

/-- `ROLLBACK` -/
def Sq3.execRollback : Sq3 S := { sq3 with db := sq3.saved.getD sq3.db, saved := none }

/-- table の内容を書き換え、hook を呼ぶ -/
def Sq3.change (tn : Bytes) (t : S.Table (mainName tn)) (call : Option (Op × Rowid)) : Sq3 S :=
  match call with
  | none => { sq3 with db := sq3.db.set (mainName tn) t }
  | some (op, r) =>
    { sq3 with
      db := sq3.db.set (mainName tn) t
      ctx := hookUpdate sq3.ctx op (ascii "main") tn r
      total := sq3.total + 1 }

/-- 行の変更を一つ行う -/
def Sq3.row (tn : Bytes) (sq3 : Sq3 S) (op : RowOp) : Option (Sq3 S) :=
  (op.apply (sq3.db (mainName tn))).map fun (t, call) => sq3.change tn t call

/-- 文。`truncate` は `WHERE` の無い DELETE で、hook を呼ばない。 -/
inductive Stmt
  | rows (tn : Bytes) (ops : List RowOp)
  | truncate (tn : Bytes)
  deriving DecidableEq

def Sq3.exec : Stmt → Option (Sq3 S)
  | .rows tn ops => if tn ∈ S.tables then ops.foldlM (Sq3.row tn) sq3 else none
  | .truncate tn =>
    if tn ∈ S.tables then
      some { sq3 with
        db := sq3.db.set (mainName tn) KeyedTable.empty
        total := sq3.total + (sq3.db (mainName tn)).size }
    else none

def Sq3.execAll (stmts : List Stmt) : Option (Sq3 S) := stmts.foldlM Sq3.exec sq3

/-! ## admin table の読み書き -/

/-- 列を byte 列として読む -/
def Schema.valueBytes (S : Schema) : Value → Bytes
  | .null => []
  | .int i => decInt i.toInt
  | .real b => S.realText b
  | .text b => b
  | .blob b => b

/-- admin table の行が持つ鍵と値 -/
def Schema.adminKv (S : Schema) : Row → Option (Bytes × Bytes)
  | .text k :: v :: _ => some (k, S.valueBytes v)
  | _ => none

/-- `sqlite_admin_entry_set` が書く行 -/
def adminRow (k v : Bytes) : Row := [.text k, if v = [] then .text [] else .blob v]

/-- `sqlite_admin_entry_set`（`repl` が真のとき） -/
def adminEntrySet (k v : Bytes) : Sq3 S :=
  let t : S.Table (mainName (ascii "admin")) := sq3.db adminName
  match newRowid t with
  | none => { sq3 with warned := true }
  | some r => sq3.change (ascii "admin") (t.replaceInto r (adminRow k v)) (some (.insert, r))

/-- `sqlx_admin_set_gba`。同じ値なら書かない。 -/
def adminSetGba (k v : Bytes) : Sq3 S :=
  if sq3.admin[k]? = some v then sq3
  else { adminEntrySet sq3 k v with admin := sq3.admin.insert k v }

/-- `sqlx_admin_inc_version` が書く値 -/
def incVersionValue (prev : Bytes) (delta : Int) : Option Bytes :=
  (splitAtChar 58 (cstr prev)).map fun (a, b) =>
    decInt (toInt64 (strtoll a + delta)) ++ ascii ":" ++ decInt (strtoll b)

/-- `sqlx_admin_inc_version` -/
def adminIncVersion (k : Bytes) (delta : Int) : Sq3 S :=
  match sq3.admin[k]?.bind (incVersionValue · delta) with
  | none => sq3
  | some v => adminSetGba sq3 k v

/-- `sqlx_admin_inc_all_versions`。新しい値は 2 byte までしか長くならない。 -/
def adminIncAllVersions (delta : Int) : Sq3 S :=
  sq3.admin.toList.foldl (fun sq3 p =>
      if hasPrefix p.1 versionPrefix then
        match incVersionValue p.2 delta with
        | none => sq3
        | some v =>
          let v := v.take (p.2.length + 2)
          { adminEntrySet sq3 p.1 v with admin := sq3.admin.insert p.1 v }
      else sq3)
    sq3

def adminLoadFromTable (db : S.Db) : AdminTree :=
  ((db adminName).rows.toList.filterMap fun p => S.adminKv p.2).foldl (updateAt fun _ v => v) ∅

/-- table `tn` の version の行の鍵 -/
def versionKey (tn : Bytes) : Bytes := versionPrefix ++ mainName tn

def adminEnsureVersion : Sq3 S :=
  S.tables.foldl (fun sq3 tn =>
      if sq3.admin[versionKey tn]?.isSome then sq3
      else
        { adminEntrySet sq3 (versionKey tn) (ascii "1:0") with
          admin := sq3.admin.insert (versionKey tn) (ascii "1:0") })
    sq3

/-- `sqlx_admin_reload` -/
def adminReload : Sq3 S := adminEnsureVersion { sq3 with admin := adminLoadFromTable sq3.db }

/-! ## 呼び出しの列から分かること -/

/-- `calls` の前後の内容。最後に DELETE で呼ばれた行は無く、呼ばれていない行はそのままか、消えている。 -/
structure Follows (db : S.Db) (calls : List Call) (db' : S.Db) : Prop where
  deleted : ∀ name r, lastDeleted calls name r = some true → (db' name).get? r = none
  untouched : ∀ name r, lastDeleted calls name r = none →
    (db' name).get? r = (db name).get? r ∨ (db' name).get? r = none

theorem lastDeleted_append (a b : List Call) (name : Bytes) (r : Rowid) :
    lastDeleted (a ++ b) name r = (lastDeleted b name r).or (lastDeleted a name r) := by
  simp only [lastDeleted, reverse_append, find?_append]
  cases find? _ b.reverse <;> simp

theorem lastDeleted_of_forall_ne {calls : List Call} {name : Bytes} {r : Rowid}
    (h : ∀ c ∈ calls, c.fullName ≠ name) : lastDeleted calls name r = none := by
  rw [lastDeleted, find?_eq_none.mpr fun c hc hp => ?_, Option.map_none]
  have hname := (of_decide_eq_true hp).1
  exact h c (mem_reverse.mp hc) hname

theorem Follows.refl (db : S.Db) : Follows db [] db :=
  ⟨fun _ _ h => by simp [lastDeleted] at h, fun _ _ _ => .inl rfl⟩

theorem Follows.trans {db db' db'' : S.Db} {calls calls' : List Call} (h : Follows db calls db')
    (h' : Follows db' calls' db'') : Follows db (calls ++ calls') db'' := by
  refine ⟨fun name r hd => ?_, fun name r hd => ?_⟩ <;> rw [lastDeleted_append] at hd
  · cases hl : lastDeleted calls' name r with
    | some d =>
      rw [hl] at hd
      exact h'.deleted name r (hl.trans hd)
    | none =>
      rw [hl] at hd
      rcases h'.untouched name r hl with he | he
      · rw [he]; exact h.deleted name r hd
      · exact he
  · obtain ⟨hl', hl⟩ := or_eq_none_iff.mp hd
    rcases h'.untouched name r hl' with he | he
    · rw [he]; exact h.untouched name r hl
    · exact .inr he

@[simp] theorem Schema.Db.set_self (db : S.Db) (name : Bytes) (t : S.Table name) :
    db.set name t name = t := Function.update_self ..

variable {name tn : Bytes} {call : Option (Op × Rowid)} {x y : Sq3 S}

theorem Schema.Db.set_other (db : S.Db) {name' : Bytes} (t : S.Table name) (h : name' ≠ name) :
    db.set name t name' = db name' := Function.update_of_ne h ..

def hookCalls (tn : Bytes) : Option (Op × Rowid) → List Call
  | none => []
  | some (op, r) => [⟨op, ascii "main", tn, r⟩]

theorem follows_change {db : S.Db} {t : S.Table (mainName tn)}
    (hdel : ∀ r, call = some (.delete, r) → t.get? r = none)
    (hrest : ∀ r, (∀ op, call ≠ some (op, r)) →
      t.get? r = (db (mainName tn)).get? r ∨ t.get? r = none) :
    Follows db (hookCalls tn call) (db.set (mainName tn) t) := by
  refine ⟨fun name r hd => ?_, fun name r hd => ?_⟩
  · match call, hd with
    | some (op, r'), hd =>
      simp only [hookCalls, lastDeleted, reverse_singleton, find?_singleton, map_eq_some_iff] at hd
      obtain ⟨c, hc, hop⟩ := hd
      split at hc
      · next hp =>
        cases hc
        simp only [decide_eq_true_eq] at hp
        obtain ⟨rfl, rfl⟩ := hp
        rw [show op = .delete by simpa using hop] at hdel
        rw [show Call.fullName _ = mainName tn from rfl, Schema.Db.set_self]
        exact hdel _ rfl
      · cases hc
  · by_cases hn : name = mainName tn
    · subst hn
      rw [Schema.Db.set_self]
      refine hrest r fun op hc => ?_
      subst hc
      simp [hookCalls, lastDeleted, Call.fullName, mainName] at hd
    · rw [Schema.Db.set_other _ _ hn]
      exact .inl rfl

theorem RowOp.apply_follows {db : S.Db} {op : RowOp} {t : S.Table (mainName tn)}
    (h : op.apply (db (mainName tn)) = some (t, call)) :
    Follows db (hookCalls tn call) (db.set (mainName tn) t) := by
  cases op with
  | insert r x =>
    obtain ⟨t', ht, he⟩ := map_eq_some_iff.mp h
    cases he
    refine follows_change (fun _ he => by cases he) fun r' hne => .inl ?_
    rw [get?_of_insert? _ ht, if_neg fun he => hne _ (by rw [he])]
  | replace r x =>
    cases h
    refine follows_change (fun _ he => by cases he) fun r' hne => ?_
    rw [get?_replaceInto, if_neg fun he => hne _ (by rw [he])]
    cases (db (mainName tn)).get? r' with
    | none => exact .inl rfl
    | some b =>
      rw [filter_some]
      split
      · exact .inl rfl
      · exact .inr rfl
  | update r r1 x =>
    simp only [RowOp.apply] at h
    split at h
    · obtain ⟨t', ht, he⟩ := map_eq_some_iff.mp h
      cases he
      refine follows_change (fun _ he => by cases he) fun r' hne => ?_
      rw [get?_of_move? _ ht, if_neg fun he => hne _ (by rw [he])]
      split
      · exact .inr rfl
      · exact .inl rfl
    · cases h
      exact follows_change (fun _ he => by cases he) fun _ _ => .inl rfl
  | delete r =>
    simp only [RowOp.apply] at h
    split at h
    · cases h
      refine follows_change (fun r' he => ?_) fun r' hne => .inl ?_
      · cases he
        simp
      · rw [get?_erase, if_neg fun he => hne _ (by rw [he])]
    · cases h
      exact follows_change (fun _ he => by cases he) fun _ _ => .inl rfl

/-! ## 操作の全体 -/

/-- `x` から `y` への操作は hook を `calls` の順に呼び、hook なしに `trunc` 行を消した -/
structure Moves (x : Sq3 S) (calls : List Call) (trunc : Nat) (y : Sq3 S) : Prop where
  ctx : y.ctx = x.ctx.hooks calls
  total : y.total = x.total + calls.length + trunc
  follows : trunc = 0 → Follows x.db calls y.db

theorem Moves.refl (x : Sq3 S) : Moves x [] 0 x := ⟨rfl, rfl, fun _ => .refl _⟩

theorem Moves.trans {z : Sq3 S} {calls calls' : List Call} {n n' : Nat} (h : Moves x calls n y)
    (h' : Moves y calls' n' z) : Moves x (calls ++ calls') (n + n') z := by
  refine ⟨?_, ?_, fun h0 => (h.follows (by omega)).trans (h'.follows (by omega))⟩
  · rw [h'.ctx, h.ctx, Repctx.hooks, Repctx.hooks, Repctx.hooks, foldl_append]
  · rw [h'.total, h.total, length_append]
    omega

theorem moves_change {t : S.Table (mainName tn)}
    (h : Follows x.db (hookCalls tn call) (x.db.set (mainName tn) t)) :
    Moves x (hookCalls tn call) 0 (x.change tn t call) := by
  match call, h with
  | none, h => exact ⟨rfl, rfl, fun _ => h⟩
  | some (op, r), h => exact ⟨rfl, rfl, fun _ => h⟩

theorem moves_row {op : RowOp} (h : Sq3.row tn x op = some y) : ∃ calls, Moves x calls 0 y := by
  obtain ⟨⟨t, call⟩, ha, rfl⟩ := map_eq_some_iff.mp h
  exact ⟨_, moves_change (RowOp.apply_follows ha)⟩

theorem moves_foldlM {α : Type} {f : Sq3 S → α → Option (Sq3 S)}
    (hf : ∀ x a y, f x a = some y → ∃ calls n, Moves x calls n y) :
    ∀ (l : List α) (x y : Sq3 S), l.foldlM f x = some y → ∃ calls n, Moves x calls n y
  | [], x, y, h => by
    cases h
    exact ⟨[], 0, .refl x⟩
  | a :: l, x, y, h => by
    obtain ⟨x', hx, h⟩ := bind_eq_some_iff.mp h
    obtain ⟨c, n, h1⟩ := hf x a x' hx
    obtain ⟨c', n', h2⟩ := moves_foldlM hf l x' y h
    exact ⟨c ++ c', n + n', h1.trans h2⟩

theorem moves_exec {stmt : Stmt} (h : x.exec stmt = some y) : ∃ calls n, Moves x calls n y := by
  cases stmt with
  | rows tn ops =>
    simp only [Sq3.exec] at h
    split at h
    · exact moves_foldlM (fun x a y hr => (moves_row hr).imp fun _ hm => ⟨0, hm⟩) ops x y h
    · cases h
  | truncate tn =>
    simp only [Sq3.exec] at h
    split at h
    · cases h
      refine ⟨[], _, rfl, rfl, fun h0 => ⟨fun _ _ hd => by simp [lastDeleted] at hd, ?_⟩⟩
      intro name r _
      dsimp only
      by_cases hn : name = mainName tn
      · subst hn
        rw [Schema.Db.set_self]
        exact .inr get?_empty
      · rw [Schema.Db.set_other _ _ hn]
        exact .inl rfl
    · cases h

/-- **文の列の実行は hook の呼び出しの列に従う。** -/
theorem moves_execAll {stmts : List Stmt} (h : x.execAll stmts = some y) :
    ∃ calls n, Moves x calls n y :=
  moves_foldlM (fun _ _ _ hs => moves_exec hs) stmts x y h

/-! ## 触れない table -/

def Stmt.table : Stmt → Bytes
  | .rows tn _ => tn
  | .truncate tn => tn

theorem row_frame {op : RowOp} (h : Sq3.row tn x op = some y) (hn : name ≠ mainName tn) :
    y.db name = x.db name := by
  obtain ⟨⟨t, call⟩, -, rfl⟩ := map_eq_some_iff.mp h
  match call with
  | none => exact Schema.Db.set_other _ _ hn
  | some (op, r) => exact Schema.Db.set_other _ _ hn

theorem foldlM_frame {α : Type} {f : Sq3 S → α → Option (Sq3 S)} :
    ∀ (l : List α) {x y : Sq3 S}, (∀ a ∈ l, ∀ x y, f x a = some y → y.db name = x.db name) →
      l.foldlM f x = some y → y.db name = x.db name
  | [], x, y, _, h => by
    cases h
    rfl
  | a :: l, x, y, hf, h => by
    obtain ⟨x', hx, h⟩ := bind_eq_some_iff.mp h
    rw [foldlM_frame l (fun b hb => hf b (mem_cons_of_mem _ hb)) h, hf a mem_cons_self x x' hx]

/-- **文の列は名指さない table を変えない。** -/
theorem execAll_frame {stmts : List Stmt} (h : x.execAll stmts = some y)
    (hn : ∀ stmt ∈ stmts, name ≠ mainName stmt.table) : y.db name = x.db name := by
  refine foldlM_frame stmts (fun stmt hs x y he => ?_) h
  have hne := hn stmt hs
  cases stmt with
  | rows tn ops =>
    simp only [Sq3.exec] at he
    split at he
    · exact foldlM_frame ops (fun op _ x y hr => row_frame hr hne) he
    · cases he
  | truncate tn =>
    simp only [Sq3.exec] at he
    split at he
    · cases he
      exact Schema.Db.set_other _ _ hne
    · cases he

end Redcurrant.Sqliterepo
