import Mathlib.Data.List.Find
import Mathlib.Data.List.Induction
import Redcurrant.Infra.KeyedTable
import Redcurrant.Metautils.Hashstr

/-!
# transaction の間に触れた行

SQLite の振る舞いと、触れた行を覚える `ctx->pending`。table は `KeyedTable`、base は full name（`main.<名前>`）
から table への写像。木の鍵は rowid の写しだが、`hashstr_quick_cmpdata` は下位 32 bit とその後の memory を比べる。
-/

namespace Redcurrant.Sqliterepo

open Infra Metautils Std List Option

section

open Int64

/-! ## 値と table -/

abbrev Rowid := Int64

inductive Value
  | null
  | int (i : Int64)
  | real (bits : UInt64)
  | text (b : Bytes)
  | blob (b : Bytes)
  deriving DecidableEq

abbrev Row := List Value

/-- database と table の名前をつないだ、hook の名前 -/
def fullName (bn tn : Bytes) : Bytes := bn ++ ascii "." ++ tn

def mainName (tn : Bytes) : Bytes := fullName (ascii "main") tn

def adminName : Bytes := mainName (ascii "admin")

/-- `admin (k TEXT PRIMARY KEY NOT NULL, v BLOB DEFAULT NULL)` の鍵 -/
def adminKey : Row → Option (List Value)
  | .text k :: _ :: _ => some [.text k]
  | _ => none

/-- base の schema。`prepares` は full name を引用符なしで文に書けること、`columns` は `SELECT *` の列の名前、`replaces` は
その列を引用符なしで並べた `REPLACE INTO` が準備できること。 -/
structure Schema where
  tables : List Bytes
  userKey : Bytes → Row → Option (List Value)
  prepares : Bytes → Bool
  columns : Bytes → List Bytes
  replaces : Bytes → List Bytes → Bool
  realText : UInt64 → Bytes
  prepares_of_replaces : ∀ name cols, replaces name cols = true → prepares name = true
  replaces_nil : ∀ name, prepares name = true → replaces name [] = true
  replaces_admin : replaces adminName (columns adminName) = true
  admin_mem : ascii "admin" ∈ tables

theorem Schema.prepares_admin (S : Schema) : S.prepares adminName = true :=
  S.prepares_of_replaces _ _ S.replaces_admin

/-- table の一意な鍵。NULL を含む鍵は `none`。 -/
def Schema.key (S : Schema) (name : Bytes) : Row → Option (List Value) :=
  if name = adminName then adminKey else S.userKey name

abbrev Schema.Table (S : Schema) (name : Bytes) := KeyedTable Rowid (S.key name)

abbrev Schema.Db (S : Schema) := (name : Bytes) → S.Table name

def Schema.Db.set {S : Schema} (db : S.Db) (name : Bytes) (t : S.Table name) : S.Db :=
  Function.update db name t

/-! ## 行ごとの変更 -/

/-- update hook に渡される操作 -/
inductive Op
  | insert | update | delete
  deriving DecidableEq

/-- 一つの行の変更。UPDATE は rowid も変えうる。 -/
inductive RowOp
  | insert (r : Rowid) (x : Row)
  | replace (r : Rowid) (x : Row)
  | update (r r' : Rowid) (x : Row)
  | delete (r : Rowid)
  deriving DecidableEq

variable {S : Schema} {name : Bytes}

/-- 変更の結果と hook の呼び出し。`none` は制約の違反。 -/
def RowOp.apply (op : RowOp) (t : S.Table name) : Option (S.Table name × Option (Op × Rowid)) :=
  match op with
  | .insert r x => (t.insert? r x).map (·, some (.insert, r))
  | .replace r x => some (t.replaceInto r x, some (.insert, r))
  | .update r r' x =>
    if (t.get? r).isSome then (t.move? r r' x).map (·, some (.update, r')) else some (t, none)
  | .delete r =>
    if (t.get? r).isSome then some (t.erase r, some (.delete, r)) else some (t, none)

/-- INSERT で選ばれる rowid。最大の rowid が使われていれば `none`。 -/
def newRowid (t : S.Table name) : Option Rowid :=
  match t.rows.keys.getLast? with
  | none => some 1
  | some r => if r < Int64.maxValue then some (r + 1) else none

theorem lt_add_one_of_lt_max {r : Int64} (h : r < maxValue) : r < r + 1 := by
  have h1 : maxValue.toInt = 2 ^ 63 - 1 := by decide
  have h2 : (1 : Int64).toInt = 1 := by decide
  have hlo := r.le_toInt
  rw [lt_iff_toInt_lt] at h
  rw [lt_iff_toInt_lt, toInt_add, Int.bmod_eq_of_le] <;> omega

theorem newRowid_unused {t : S.Table name} {r : Rowid} (h : newRowid t = some r) :
    t.get? r = none := by
  suffices hr : r ∉ t.rows.keys by
    exact ExtTreeMap.getElem?_eq_none fun hm => hr (ExtTreeMap.mem_keys.mpr hm)
  unfold newRowid at h
  split at h
  · next hl =>
    rw [getLast?_eq_none_iff.mp hl]
    exact not_mem_nil
  rename_i m hl
  split at h
  · next hlt =>
    cases h
    obtain ⟨ys, hys⟩ := getLast?_eq_some_iff.mp hl
    have hord := t.rows.ordered_keys
    rw [hys, pairwise_append] at hord
    -- `m` は最後の鍵なので、他の鍵より大きい
    have hmax : m + 1 ≤ m ∨ m + 1 ∉ t.rows.keys := by
      by_cases hm : m + 1 ∈ t.rows.keys
      · rw [hys] at hm
        refine .inl ?_
        rcases mem_append.mp hm with hm | hm
        · refine (LawfulOrderOrd.isLE_compare _ _).mp ?_
          rw [hord.2.2 _ hm m mem_cons_self]
          rfl
        · exact le_of_eq (mem_singleton.mp hm)
      · exact .inr hm
    exact hmax.resolve_left (not_le.mpr (lt_add_one_of_lt_max hlt))
  · cases h

end

/-! ## 定義 -/

/-- rowid の写しを `hashstr_t` として読んだもの。`tail` は後に続く memory。 -/
def rowidKey (r : Rowid) (tail : Bytes) : Hashstr := ⟨r.toUInt64.toUInt32, cstr tail⟩

/-- table の触れた行。値は rowid と、最後の操作が DELETE か。 -/
abbrev Subtree := ExtTreeMap Hashstr (Rowid × Bool) Hashstr.quickCmp

abbrev Pending := ExtTreeMap Hashstr Subtree Hashstr.quickCmp

structure Call where
  op : Op
  (bn tn : Bytes)
  rowid : Rowid
  deriving DecidableEq

def Call.fullName (c : Call) : Bytes := Sqliterepo.fullName c.bn c.tn

/-- `struct sqlx_repctx_s`。`heap k` は `k` 番目の写しの後に続く memory、`log` は性質の記述のための列。 -/
structure Repctx where
  pending : Pending
  changes : Nat
  (hollow huge : Bool)
  heap : Nat → Bytes
  allocs : Nat
  log : List Call

/-- `sqlx_transaction_prepare` の作る context -/
def Repctx.create (hollow : Bool) (total : Nat) (heap : Nat → Bytes) : Repctx :=
  ⟨∅, total, hollow, false, heap, 0, []⟩

def contextGetPendingTable (tree : Pending) (key : Hashstr) : Subtree := tree[key]?.getD ∅

def hookUpdate (ctx : Repctx) (op : Op) (bn tn : Bytes) (r : Rowid) : Repctx :=
  if ctx.hollow || ctx.huge then ctx
  else
    let key := Hashstr.create (fullName bn tn)
    let subtree := contextGetPendingTable ctx.pending key
    { ctx with
      changes := ctx.changes + 1
      allocs := ctx.allocs + 1
      log := ctx.log ++ [⟨op, bn, tn, r⟩]
      pending := ctx.pending.insert key
        (subtree.insert (rowidKey r (ctx.heap ctx.allocs)) (r, op == .delete)) }

def Repctx.hooks (ctx : Repctx) (calls : List Call) : Repctx :=
  calls.foldl (fun ctx c => hookUpdate ctx c.op c.bn c.tn c.rowid) ctx

/-- table `name` の、鍵 `slot` の entry -/
def Pending.entry (p : Pending) (name : Bytes) (slot : Hashstr) : Option (Rowid × Bool) :=
  (contextGetPendingTable p (Hashstr.create name))[slot]?

/-! ## 1 回の呼び出し -/

variable {ctx : Repctx} {name : Bytes} {slot : Hashstr} {heap : Nat → Bytes} {calls : List Call}

open Repctx

theorem entry_hookUpdate {op : Op} {bn tn : Bytes} {r : Rowid} (hh : ctx.hollow = false)
    (hg : ctx.huge = false) :
    (hookUpdate ctx op bn tn r).pending.entry name slot =
      if fullName bn tn = name ∧ rowidKey r (ctx.heap ctx.allocs) = slot then
        some (r, op == .delete)
      else ctx.pending.entry name slot := by
  have hkey : ∀ a b : Bytes, Hashstr.create a = Hashstr.create b ↔ a = b :=
    fun a b => ⟨Hashstr.create_inj, fun h => by rw [h]⟩
  simp only [hookUpdate, hh, hg, Bool.or_false, Bool.false_eq_true, if_false, Pending.entry,
    contextGetPendingTable, ExtTreeMap.getElem?_insert, Hashstr.quickCmp_eq_eq, hkey]
  by_cases hn : fullName bn tn = name
  · subst hn
    simp [ExtTreeMap.getElem?_insert]
  · simp [hn]

theorem hookUpdate_frame (ctx : Repctx) (op : Op) (bn tn : Bytes) (r : Rowid) :
    (hookUpdate ctx op bn tn r).hollow = ctx.hollow ∧ (hookUpdate ctx op bn tn r).huge = ctx.huge ∧
      (hookUpdate ctx op bn tn r).heap = ctx.heap := by
  unfold hookUpdate
  split <;> exact ⟨rfl, rfl, rfl⟩

/-! ## 呼び出しの列 -/

/-- 呼び出しと、その写しの鍵 -/
def touches (heap : Nat → Bytes) : Nat → List Call → List (Call × Hashstr)
  | _, [] => []
  | n, c :: cs => (c, rowidKey c.rowid (heap n)) :: touches heap (n + 1) cs

theorem touches_append (n : Nat) (a b : List Call) :
    touches heap n (a ++ b) = touches heap n a ++ touches heap (n + a.length) b := by
  induction a generalizing n with
  | nil => rfl
  | cons c cs ih =>
    simp only [cons_append, touches, ih, length_cons]
    rw [Nat.add_right_comm, Nat.add_assoc]

theorem map_fst_touches (n : Nat) : (touches heap n calls).map Prod.fst = calls := by
  induction calls generalizing n with
  | nil => rfl
  | cons c cs ih => simp [touches, ih]

section

variable (calls : List Call)

theorem hooks_frame : ∀ ctx : Repctx,
    (ctx.hooks calls).hollow = ctx.hollow ∧ (ctx.hooks calls).huge = ctx.huge ∧
      (ctx.hooks calls).heap = ctx.heap := by
  induction calls with
  | nil => exact fun _ => ⟨rfl, rfl, rfl⟩
  | cons c cs ih =>
    intro ctx
    obtain ⟨h1, h2, h3⟩ := hookUpdate_frame ctx c.op c.bn c.tn c.rowid
    obtain ⟨h1', h2', h3'⟩ := ih (hookUpdate ctx c.op c.bn c.tn c.rowid)
    exact ⟨h1'.trans h1, h2'.trans h2, h3'.trans h3⟩

theorem hooks_allocs : ∀ ctx : Repctx, ctx.hollow = false → ctx.huge = false →
    (ctx.hooks calls).allocs = ctx.allocs + calls.length ∧
      (ctx.hooks calls).changes = ctx.changes + calls.length := by
  induction calls with
  | nil => exact fun _ _ _ => ⟨rfl, rfl⟩
  | cons c cs ih =>
    intro ctx hh hg
    obtain ⟨h1, h2, -⟩ := hookUpdate_frame ctx c.op c.bn c.tn c.rowid
    obtain ⟨ha, hc⟩ := ih _ (h1.trans hh) (h2.trans hg)
    have hstep : (hookUpdate ctx c.op c.bn c.tn c.rowid).allocs = ctx.allocs + 1 ∧
        (hookUpdate ctx c.op c.bn c.tn c.rowid).changes = ctx.changes + 1 := by
      simp [hookUpdate, hh, hg]
    refine ⟨ha.trans ?_, hc.trans ?_⟩
    · rw [length_cons]; omega
    · rw [length_cons]; omega

theorem hooks_log : ∀ ctx : Repctx, ctx.hollow = false → ctx.huge = false →
    (ctx.hooks calls).log = ctx.log ++ calls := by
  induction calls with
  | nil => simp [hooks]
  | cons c cs ih =>
    intro ctx hh hg
    obtain ⟨h1, h2, -⟩ := hookUpdate_frame ctx c.op c.bn c.tn c.rowid
    have hstep : (hookUpdate ctx c.op c.bn c.tn c.rowid).log = ctx.log ++ [c] := by
      simp [hookUpdate, hh, hg]
    refine (ih _ (h1.trans hh) (h2.trans hg)).trans ?_
    rw [hstep, append_assoc, singleton_append]

theorem hooks_concat (c : Call) :
    ctx.hooks (calls ++ [c]) = hookUpdate (ctx.hooks calls) c.op c.bn c.tn c.rowid := by
  simp [hooks]

/-- `name` の鍵 `slot` を最後に書いた呼び出し -/
def lastTouch (ts : List (Call × Hashstr)) (name : Bytes) (slot : Hashstr) :
    Option (Call × Hashstr) :=
  ts.reverse.find? fun x => x.1.fullName = name ∧ x.2 = slot

/-- **entry はその鍵を最後に書いた呼び出しのもの。** -/
theorem entry_hooks (hh : ctx.hollow = false) (hg : ctx.huge = false) (he : ctx.pending = ∅) :
    (ctx.hooks calls).pending.entry name slot =
      (lastTouch (touches ctx.heap ctx.allocs calls) name slot).map fun x =>
        (x.1.rowid, x.1.op == .delete) := by
  induction calls using reverseRecOn with
  | nil => simp [hooks, he, Pending.entry, contextGetPendingTable, lastTouch, touches]
  | append_singleton calls c ih =>
    obtain ⟨h1, h2, h3⟩ := hooks_frame calls ctx
    have ha := (hooks_allocs calls ctx hh hg).1
    rw [hooks_concat, entry_hookUpdate (h1.trans hh) (h2.trans hg), ih, h3, ha, touches_append]
    simp only [lastTouch, touches, reverse_append, reverse_singleton,
      singleton_append, find?_cons, Call.fullName]
    split
    · next h => simp [h]
    · next h => simp [h]

end

/-! ## 正しく覚えていること -/

/-- 行への最後の操作が DELETE かどうか。触れていなければ `none`。 -/
def lastDeleted (calls : List Call) (name : Bytes) (r : Rowid) : Option Bool :=
  (calls.reverse.find? fun c => c.fullName = name ∧ c.rowid = r).map fun c => c.op == .delete

/-- 触れた行のそれぞれに最後の操作を伝える entry が一つあり、他は無い -/
def Exact (calls : List Call) (p : Pending) : Prop :=
  (∀ name slot r d, p.entry name slot = some (r, d) → lastDeleted calls name r = some d) ∧
    ∀ name r d, lastDeleted calls name r = some d → ∃! slot, ∃ d', p.entry name slot = some (r, d')

/-- 同じ table の呼び出しは rowid が同じときに限り、同じ鍵になる -/
def Separated (heap : Nat → Bytes) (calls : List Call) : Prop :=
  ∀ x ∈ touches heap 0 calls, ∀ y ∈ touches heap 0 calls, x.1.fullName = y.1.fullName →
    (x.2 = y.2 ↔ x.1.rowid = y.1.rowid)

instance : Decidable (Separated heap calls) :=
  inferInstanceAs (Decidable (∀ x ∈ touches heap 0 calls, ∀ y ∈ touches heap 0 calls,
    x.1.fullName = y.1.fullName → (x.2 = y.2 ↔ x.1.rowid = y.1.rowid)))

theorem lastDeleted_eq (heap : Nat → Bytes) (calls : List Call) (name : Bytes) (r : Rowid) :
    lastDeleted calls name r =
      ((touches heap 0 calls).reverse.find? fun x => x.1.fullName = name ∧ x.1.rowid = r).map
        fun x => x.1.op == .delete := by
  have : calls.reverse = (touches heap 0 calls).reverse.map Prod.fst := by
    rw [map_reverse, map_fst_touches]
  rw [lastDeleted, this, List.find?_map, Option.map_map]
  rfl

theorem Separated.find_eq (h : Separated heap calls) {x : Call × Hashstr}
    (hx : x ∈ touches heap 0 calls) :
    lastTouch (touches heap 0 calls) x.1.fullName x.2 =
      (touches heap 0 calls).reverse.find? fun y =>
        y.1.fullName = x.1.fullName ∧ y.1.rowid = x.1.rowid := by
  refine find?_congr fun y hy => decide_eq_decide.mpr ⟨?_, ?_⟩
  · rintro ⟨hn, hs⟩
    exact ⟨hn, (h y (mem_reverse.mp hy) x hx hn).mp hs⟩
  · rintro ⟨hn, hr⟩
    exact ⟨hn, (h y (mem_reverse.mp hy) x hx hn).mpr hr⟩

theorem mem_of_lastTouch {ts : List (Call × Hashstr)} {x : Call × Hashstr}
    (h : lastTouch ts name slot = some x) : x ∈ ts ∧ x.1.fullName = name ∧ x.2 = slot := by
  have hp := find?_some h
  exact ⟨mem_reverse.mp (mem_of_find?_eq_some h), by simpa using hp⟩

theorem entry_eq_some_iff {n : Nat} {r : Rowid} {d : Bool} :
    ((create false n heap).hooks calls).pending.entry name slot = some (r, d) ↔
      ∃ x, lastTouch (touches heap 0 calls) name slot = some x ∧ x.1.rowid = r ∧
        (x.1.op == .delete) = d := by
  rw [entry_hooks calls rfl rfl rfl]
  simp [create]

section

variable (h : Separated heap calls)
include h

theorem exact_of_separated {n : Nat} : Exact calls ((create false n heap).hooks calls).pending := by
  refine ⟨?_, ?_⟩
  · intro name slot r d he
    obtain ⟨x, hx, rfl, rfl⟩ := entry_eq_some_iff.mp he
    obtain ⟨hmem, rfl, rfl⟩ := mem_of_lastTouch hx
    rw [h.find_eq hmem] at hx
    rw [lastDeleted_eq heap, hx]
    rfl
  intro name r d hd
  rw [lastDeleted_eq heap, map_eq_some_iff] at hd
  obtain ⟨x, hx, rfl⟩ := hd
  have hmem : x ∈ touches heap 0 calls := mem_reverse.mp (mem_of_find?_eq_some hx)
  have hp := find?_some hx
  simp only [decide_eq_true_eq] at hp
  obtain ⟨rfl, rfl⟩ := hp
  refine ⟨x.2, ⟨_, entry_eq_some_iff.mpr ⟨x, (h.find_eq hmem).trans hx, rfl, rfl⟩⟩, ?_⟩
  rintro slot ⟨d', he⟩
  obtain ⟨y, hy, hr, -⟩ := entry_eq_some_iff.mp he
  obtain ⟨hmem', hn, rfl⟩ := mem_of_lastTouch hy
  exact (h y hmem' x hmem hn).mpr hr

theorem separated_last {c : Call}
    (he : Exact (calls ++ [c]) ((create false 0 heap).hooks (calls ++ [c])).pending)
    {y : Call × Hashstr} (hy : y ∈ touches heap 0 calls) (hn : y.1.fullName = c.fullName) :
    y.2 = rowidKey c.rowid (heap calls.length) ↔ y.1.rowid = c.rowid := by
  have hentry : ∀ slot, ((create false 0 heap).hooks (calls ++ [c])).pending.entry c.fullName slot =
      if rowidKey c.rowid (heap calls.length) = slot then some (c.rowid, c.op == .delete)
      else ((create false 0 heap).hooks calls).pending.entry c.fullName slot := by
    intro slot
    obtain ⟨h1, h2, h3⟩ := hooks_frame calls (create false 0 heap)
    rw [hooks_concat, entry_hookUpdate h1 h2, h3,
      (hooks_allocs calls (create false 0 heap) rfl rfl).1]
    simp [create, Call.fullName]
  obtain ⟨d, hd⟩ : ∃ d, lastDeleted (calls ++ [c]) c.fullName y.1.rowid = some d := by
    rw [← isSome_iff_exists, lastDeleted_eq heap, isSome_map, find?_isSome]
    refine ⟨y, ?_, by simp [hn]⟩
    rw [touches_append, mem_reverse]
    exact mem_append_left _ hy
  obtain ⟨slot, ⟨d', hs⟩, huniq⟩ := he.2 _ _ _ hd
  -- 同じ table の古い entry の rowid は鍵で決まる
  have hold : ∀ {slot r d}, ((create false 0 heap).hooks calls).pending.entry c.fullName slot =
      some (r, d) → (slot = y.2 ↔ r = y.1.rowid) := by
    intro slot r d he
    obtain ⟨z, hz, rfl, -⟩ := entry_eq_some_iff.mp he
    obtain ⟨hmem, hzn, rfl⟩ := mem_of_lastTouch hz
    exact h z hmem y hy (hzn.trans hn.symm)
  constructor
  · -- 鍵が同じで rowid が違えば、`y` の行の entry が失われる
    intro hslot
    by_contra hne
    rw [hentry] at hs
    split at hs
    · injection hs with hs
      exact hne (congrArg Prod.fst hs).symm
    · next hk => exact hk (((hold hs).mpr rfl).trans hslot).symm
  · -- rowid が同じで鍵が違えば、一つの行に entry が二つできる
    intro hr
    have hlast : slot = rowidKey c.rowid (heap calls.length) :=
      (huniq _ ⟨_, by rw [hentry, if_pos rfl, hr]⟩).symm
    by_contra hne
    obtain ⟨z, hz⟩ : ∃ z, lastTouch (touches heap 0 calls) c.fullName y.2 = some z := by
      rw [← isSome_iff_exists, lastTouch, find?_isSome]
      exact ⟨y, mem_reverse.mpr hy, by simp [hn]⟩
    have hz' : ((create false 0 heap).hooks calls).pending.entry c.fullName y.2 =
        some (z.1.rowid, z.1.op == .delete) := entry_eq_some_iff.mpr ⟨z, hz, rfl, rfl⟩
    have hzr := (hold hz').mp rfl
    refine hne (.trans ?_ hlast)
    refine huniq y.2 ⟨z.1.op == .delete, ?_⟩
    rw [hentry, if_neg (Ne.symm hne), hz', hzr]

theorem separated_concat {c : Call} (hc : ∀ y ∈ touches heap 0 calls, y.1.fullName = c.fullName →
      (y.2 = rowidKey c.rowid (heap calls.length) ↔ y.1.rowid = c.rowid)) :
    Separated heap (calls ++ [c]) := by
  have hmem : ∀ x, x ∈ touches heap 0 (calls ++ [c]) ↔
      x ∈ touches heap 0 calls ∨ x = (c, rowidKey c.rowid (heap calls.length)) := by
    intro x
    rw [touches_append, mem_append, Nat.zero_add]
    simp [touches]
  intro x hx y hy hn
  rcases (hmem x).mp hx with hx | rfl <;> rcases (hmem y).mp hy with hy | rfl
  · exact h x hx y hy hn
  · exact hc x hx hn
  · rw [eq_comm, hc y hy hn.symm, eq_comm]
  · simp

theorem Separated.of_prefix {p : List Call} (hp : p <+: calls) : Separated heap p := by
  obtain ⟨q, rfl⟩ := hp
  intro x hx y hy
  exact h x (by rw [touches_append]; exact mem_append_left _ hx) y
    (by rw [touches_append]; exact mem_append_left _ hy)

end

/-- **transaction のどの時点でも触れた行が正しく覚えられているのは、同じ table の 2 つの呼び出しの鍵が、rowid が同じとき
だけ等しいとき。** -/
theorem pending_exact_iff (heap : Nat → Bytes) (calls : List Call) :
    (∀ p, p <+: calls → Exact p ((Repctx.create false 0 heap).hooks p).pending) ↔
      Separated heap calls := by
  constructor
  · intro h
    induction calls using reverseRecOn with
    | nil => exact fun x hx => absurd hx not_mem_nil
    | append_singleton calls c ih =>
      have hsep := ih fun p hp => h p (hp.trans (prefix_append _ _))
      exact separated_concat hsep fun y hy hn => separated_last hsep (h _ (prefix_refl _)) hy hn
  · exact fun h p hp => exact_of_separated (h.of_prefix hp)

def twinCalls : List Call :=
  [⟨.insert, ascii "main", ascii "t", 1⟩, ⟨.insert, ascii "main", ascii "t", 4294967297⟩]

/-- **下位 32 bit の同じ 2 つの行に触れると、先の行が失われる。** -/
theorem pending_lost_rowid :
    (((Repctx.create false 0 fun _ => []).hooks twinCalls).pending.toList.map fun p => p.2.toList) =
        [[(⟨1, []⟩, (4294967297, false))]] ∧
      lastDeleted twinCalls (ascii "main.t") 1 = some false ∧
      ¬Exact twinCalls ((Repctx.create false 0 fun _ => []).hooks twinCalls).pending := by
  refine ⟨by decide +kernel, by decide +kernel, fun h => ?_⟩
  obtain ⟨slot, ⟨d, hs⟩, -⟩ := h.2 (ascii "main.t") 1 false (by decide +kernel)
  obtain ⟨x, hx, hr, -⟩ := entry_eq_some_iff.mp hs
  obtain ⟨hmem, -, rfl⟩ := mem_of_lastTouch hx
  have hlast : ∀ y ∈ touches (fun _ => []) 0 twinCalls,
      ∀ x ∈ lastTouch (touches (fun _ => []) 0 twinCalls) (ascii "main.t") y.2, x.1.rowid ≠ 1 := by
    decide +kernel
  exact hlast x hmem x hx hr

end Redcurrant.Sqliterepo
