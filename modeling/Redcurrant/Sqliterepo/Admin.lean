import Redcurrant.Sqliterepo.Base

/-!
# admin table とその cache

`sq3->admin` は admin table の写しである（`Sq3.Cached`）。開いた base には version の行がある（`Sq3.Opened`）。
-/

namespace Redcurrant.Sqliterepo

open Infra Metautils Std Option List Schema ExtTreeMap KeyedTable

variable {S : Schema}

/-! ## admin table の行 -/

theorem Schema.key_admin : S.key adminName = adminKey := if_pos rfl

variable {k v k' : Bytes} {db db' db'' : S.Db} {x : Sq3 S}

theorem Schema.adminKv_eq_some {row : Row} :
    S.adminKv row = some (k, v) ↔ ∃ w rest, row = .text k :: w :: rest ∧ S.valueBytes w = v := by
  constructor
  · intro h
    unfold adminKv at h
    split at h
    · next k' w rest =>
      cases h
      exact ⟨w, rest, rfl, rfl⟩
    · cases h
  · rintro ⟨w, rest, rfl, rfl⟩
    rfl

theorem Schema.adminKv_adminRow (k v : Bytes) : S.adminKv (adminRow k v) = some (k, v) := by
  unfold adminRow
  split
  · next h => rw [h]; rfl
  · rfl

theorem Schema.clash_iff_of_adminKv {a b : Row} {v' : Bytes} (ha : S.adminKv a = some (k, v))
    (hb : S.adminKv b = some (k', v')) : Clash (S.key adminName) a b ↔ k = k' := by
  obtain ⟨w, rest, rfl, -⟩ := adminKv_eq_some.mp ha
  obtain ⟨w', rest', rfl, -⟩ := adminKv_eq_some.mp hb
  simp [Clash, key_admin, adminKey]

theorem Schema.adminKv_of_clash {a b : Row} (h : Clash (S.key adminName) a b)
    (ha : S.adminKv a = some (k, v)) : ∃ v', S.adminKv b = some (k, v') := by
  obtain ⟨w, rest, rfl, -⟩ := adminKv_eq_some.mp ha
  have he : some [Value.text k] = adminKey b := by
    rw [← key_admin (S := S), ← h.2]
    rfl
  unfold adminKey at he
  split at he
  · next k' w' rest' =>
    cases he
    exact ⟨_, rfl⟩
  · cases he

/-- **cache に読み込まれるのは admin table の行の鍵と値。** -/
theorem adminLoadFromTable_eq_some : (adminLoadFromTable db)[k]? = some v ↔
    ∃ r row, (db adminName).get? r = some row ∧ S.adminKv row = some (k, v) := by
  have hpair : ((db adminName).rows.toList.filterMap fun p => S.adminKv p.2).Pairwise
      fun p q => p.1 ≠ q.1 := by
    rw [pairwise_filterMap]
    refine (pairwise_ne_toList _).imp_of_mem ?_
    rintro ⟨r, a⟩ ⟨r', b⟩ ha hb hne ⟨k, v⟩ hka ⟨k', v'⟩ hkb hk
    rw [ExtTreeMap.mem_toList_iff_getElem?_eq_some] at ha hb
    exact hne ((db adminName).unique ha hb ((Schema.clash_iff_of_adminKv hka hkb).mpr hk))
  rw [adminLoadFromTable, getElem?_foldl_set_iff hpair]
  simp [KeyedTable.get?]

/-! ## cache の正しさ -/

/-- cache は admin table の内容 -/
def Sq3.Cached (x : Sq3 S) : Prop := x.admin = adminLoadFromTable x.db

/-- 開いた base。cache が正しく、version の行がある。 -/
structure Sq3.Opened (x : Sq3 S) : Prop where
  cached : x.Cached
  versioned : ∀ tn ∈ S.tables, x.admin[versionKey tn]?.isSome

/-- admin table と cache の両方に書く -/
def adminPut (x : Sq3 S) (k v : Bytes) : Sq3 S :=
  { adminEntrySet x k v with admin := x.admin.insert k v }

theorem adminLoadFromTable_replaceInto {r : Rowid} (k v : Bytes) (hr : (db adminName).get? r = none) :
    adminLoadFromTable (db.set adminName ((db adminName).replaceInto r (adminRow k v))) =
      (adminLoadFromTable db).insert k v := by
  have hrow := Schema.adminKv_adminRow (S := S) k v
  refine ext_getElem? fun k' => ext fun v' => ?_
  rw [adminLoadFromTable_eq_some, ExtTreeMap.getElem?_insert, Schema.Db.set_self]
  simp only [get?_replaceInto, LawfulEqCmp.compare_eq_iff_eq]
  constructor
  · rintro ⟨r', row, hget, hkv⟩
    split at hget
    · cases hget
      rw [hrow] at hkv
      cases hkv
      rw [if_pos rfl]
    rw [filter_eq_some_iff] at hget
    have hne : ¬k = k' := fun he => by
      have := (clash_iff_of_adminKv hrow hkv).mpr he
      simp [this] at hget
    rw [if_neg hne]
    exact adminLoadFromTable_eq_some.mpr ⟨r', row, hget.1, hkv⟩
  · intro h
    split at h
    · next he =>
      cases h
      exact ⟨r, _, if_pos rfl, he ▸ hrow⟩
    rename_i hne
    obtain ⟨r', row, hget, hkv⟩ := adminLoadFromTable_eq_some.mp h
    have hr' : r' ≠ r := fun he => by rw [he, hr] at hget; cases hget
    refine ⟨r', row, ?_, hkv⟩
    rw [if_neg hr', filter_eq_some_iff]
    refine ⟨hget, ?_⟩
    simpa using fun hc => hne ((clash_iff_of_adminKv hrow hkv).mp hc)

/-! ## version の行 -/

def VersionRow (row : Row) : Prop := ∃ y w rest, row = .text (versionPrefix ++ y) :: w :: rest

theorem VersionRow.of_clash {a b : Row} (h : Clash (S.key adminName) a b) (ha : VersionRow a) :
    VersionRow b := by
  obtain ⟨y, w, rest, rfl⟩ := ha
  obtain ⟨v', hb⟩ := adminKv_of_clash h (adminKv_eq_some.mpr ⟨w, rest, rfl, rfl⟩)
  obtain ⟨w', rest', rfl, -⟩ := adminKv_eq_some.mp hb
  exact ⟨y, w', rest', rfl⟩

/-- version の行の鍵はどれも残っている -/
def KeepsVersions (db db' : S.Db) : Prop :=
  ∀ r a, VersionRow a → (db adminName).get? r = some a →
    ∃ r' b, (db' adminName).get? r' = some b ∧ Clash (S.key adminName) b a

/-- 2 つの base の version の行は rowid まで同じ -/
def SameVersions (db db' : S.Db) : Prop :=
  ∀ r a, VersionRow a → ((db adminName).get? r = some a ↔ (db' adminName).get? r = some a)

theorem Schema.clash_self {a : Row} (h : VersionRow a) : Clash (S.key adminName) a a := by
  obtain ⟨y, w, rest, rfl⟩ := h
  simp [Clash, key_admin, adminKey]

theorem SameVersions.keeps (h : SameVersions db db') : KeepsVersions db db' :=
  fun r a ha hr => ⟨r, a, (h r a ha).mp hr, clash_self ha⟩

theorem SameVersions.refl (db : S.Db) : SameVersions db db := fun _ _ _ => Iff.rfl

theorem KeepsVersions.trans (h : KeepsVersions db db') (h' : KeepsVersions db' db'') :
    KeepsVersions db db'' := by
  intro r a ha hr
  obtain ⟨r', b, hr', hc⟩ := h r a ha hr
  obtain ⟨r'', c, hr'', hc'⟩ := h' r' b (ha.of_clash hc.symm) hr'
  exact ⟨r'', c, hr'', hc'.1, hc'.2.trans hc.2⟩

theorem SameVersions.load_eq (h : SameVersions db db') (y : Bytes) :
    (adminLoadFromTable db)[versionPrefix ++ y]? = (adminLoadFromTable db')[versionPrefix ++ y]? := by
  refine ext fun v => ?_
  simp only [adminLoadFromTable_eq_some]
  refine exists_congr fun r => exists_congr fun row => and_congr_left fun hkv => ?_
  obtain ⟨w, rest, rfl, -⟩ := adminKv_eq_some.mp hkv
  exact h r _ ⟨y, w, rest, rfl⟩

/-! ## 書き込みの列 -/

/-- admin table への書き込みの列 `x` から `y` -/
structure Writes (x : Sq3 S) (calls : List Call) (y : Sq3 S) : Prop where
  moves : Moves x calls 0 y
  admin : ∀ c ∈ calls, c.fullName = adminName
  warned : y.warned = false → x.warned = false
  cached : y.warned = false → x.Cached → y.Cached
  keeps : KeepsVersions x.db y.db
  present : ∀ k : Bytes, x.admin[k]?.isSome → y.admin[k]?.isSome

theorem Writes.refl (x : Sq3 S) : Writes x [] x :=
  ⟨.refl x, by simp, id, fun _ => id, (SameVersions.refl _).keeps, fun _ => id⟩

theorem Writes.trans {x y z : Sq3 S} {calls calls' : List Call} (h : Writes x calls y)
    (h' : Writes y calls' z) : Writes x (calls ++ calls') z where
  moves := h.moves.trans h'.moves
  admin c hc := (mem_append.mp hc).elim (h.admin c) (h'.admin c)
  warned hz := h.warned (h'.warned hz)
  cached hz hx := h'.cached hz (h.cached (h'.warned hz) hx)
  keeps := h.keeps.trans h'.keeps
  present k hk := h'.present k (h.present k hk)

theorem Writes.opened {y : Sq3 S} {calls : List Call} (h : Writes x calls y) (hx : x.Opened)
    (hw : y.warned = false) : y.Opened :=
  ⟨h.cached hw hx.cached, fun tn htn => h.present _ (hx.versioned tn htn)⟩

theorem isSome_insert {t : AdminTree} (h : t[k']?.isSome) : (t.insert k v)[k']?.isSome := by
  rw [ExtTreeMap.getElem?_insert]
  split
  · rfl
  · exact h

theorem adminPut_of_none (k v : Bytes) (h : newRowid (x.db adminName) = none) :
    adminPut x k v = { x with warned := true, admin := x.admin.insert k v } := by
  have : adminEntrySet x k v = { x with warned := true } := by
    unfold adminEntrySet
    dsimp only
    split
    · rfl
    · next r hr => cases h.symm.trans hr
  rw [adminPut, this]

theorem adminPut_of_some {r : Rowid} (k v : Bytes) (h : newRowid (x.db adminName) = some r) :
    adminPut x k v = { x with
        db := x.db.set adminName ((x.db adminName).replaceInto r (adminRow k v))
        ctx := hookUpdate x.ctx .insert (ascii "main") (ascii "admin") r
        total := x.total + 1
        admin := x.admin.insert k v } := by
  have : adminEntrySet x k v =
      x.change (ascii "admin") ((x.db adminName).replaceInto r (adminRow k v))
        (some (.insert, r)) := by
    unfold adminEntrySet
    dsimp only
    split
    · next hr => cases h.symm.trans hr
    · next r' hr =>
      cases h.symm.trans hr
      rfl
  rw [adminPut, this]
  rfl

theorem keepsVersions_replaceInto (db : S.Db) (r : Rowid) (x : Row) (hr : (db adminName).get? r = none) :
    KeepsVersions db (db.set adminName ((db adminName).replaceInto r x)) := by
  intro r' a ha hget
  rw [Schema.Db.set_self]
  by_cases hc : Clash (S.key adminName) x a
  · exact ⟨r, x, by rw [get?_replaceInto, if_pos rfl], hc⟩
  have hne : r' ≠ r := fun he => by rw [he, hr] at hget; cases hget
  refine ⟨r', a, ?_, clash_self ha⟩
  rw [get?_replaceInto, if_neg hne, hget]
  simp [hc]

/-- **admin table への 1 回の書き込み。** -/
theorem writes_adminPut (x : Sq3 S) (k v : Bytes) : ∃ calls, Writes x calls (adminPut x k v) := by
  have hpresent : ∀ k' : Bytes, x.admin[k']?.isSome → (adminPut x k v).admin[k']?.isSome :=
    fun k' hk => isSome_insert hk
  cases hr : newRowid (x.db adminName) with
  | none =>
    rw [adminPut_of_none k v hr] at hpresent ⊢
    exact ⟨[], ⟨rfl, rfl, fun _ => .refl _⟩, by simp, nofun, nofun, (SameVersions.refl _).keeps, hpresent⟩
  | some r =>
    rw [adminPut_of_some k v hr] at hpresent ⊢
    have hfollows : Follows x.db (hookCalls (ascii "admin") (some (.insert, r)))
        (x.db.set adminName ((x.db adminName).replaceInto r (adminRow k v))) :=
      @RowOp.apply_follows S (ascii "admin") _ x.db (.replace r (adminRow k v)) _ rfl
    refine ⟨_, ⟨rfl, rfl, fun _ => hfollows⟩, by simp [hookCalls]; rfl, id, fun _ hx => ?_,
      keepsVersions_replaceInto _ _ _ (newRowid_unused hr), hpresent⟩
    rw [Sq3.Cached, adminLoadFromTable_replaceInto k v (newRowid_unused hr), ← hx]

theorem writes_foldl {α : Type} {f : Sq3 S → α → Sq3 S} (hf : ∀ x a, ∃ calls, Writes x calls (f x a)) :
    ∀ (l : List α) (x : Sq3 S), ∃ calls, Writes x calls (l.foldl f x)
  | [], x => ⟨[], .refl x⟩
  | a :: l, x => by
    obtain ⟨c, hc⟩ := hf x a
    obtain ⟨c', hc'⟩ := writes_foldl hf l (f x a)
    exact ⟨c ++ c', hc.trans hc'⟩

/-! ## version を増やす -/

/-- 増やした version の値。読めない値はそのまま。 -/
def bumped (delta : Int) (b : Bytes) : Bytes := (incVersionValue b delta).getD b

theorem splitAtChar_dec (n w : Int) :
    splitAtChar 58 (cstr (decInt n ++ ascii ":" ++ decInt w)) = some (decInt n, decInt w) := by
  have hbyte : ∀ {z : Int} {b : UInt8}, b = 0 ∨ b = 58 → b ∉ decInt z := by
    rintro z b hb hm
    rcases decInt_byte hm with rfl | hd
    · revert hb; decide
    · rcases hb with rfl | rfl <;> revert hd <;> decide
  have hz : (0 : UInt8) ∉ decInt n ++ 58 :: decInt w := by
    simp [hbyte]
  rw [show decInt n ++ ascii ":" ++ decInt w = decInt n ++ 58 :: decInt w by simp [ascii],
    cstr_eq_self hz, splitAtChar_append (hbyte (.inr rfl))]

theorem strtoll_dec {z : Int} (h : -2 ^ 63 ≤ z ∧ z < 2 ^ 63) : strtoll (decInt z) = z := by
  have := @strtoll_decInt [] z h.1 h.2 (by simp)
  rwa [append_nil] at this

theorem parseVersion_dec {n w : Int} (hn : -2 ^ 63 ≤ n ∧ n < 2 ^ 63) (hw : -2 ^ 63 ≤ w ∧ w < 2 ^ 63) :
    parseVersion (decInt n ++ ascii ":" ++ decInt w) = some ⟨toInt32 n, toInt32 w⟩ := by
  rw [parseVersion, splitAtChar_dec, map_some]
  dsimp only
  rw [atoi, atoi, strtoll_dec hn, strtoll_dec hw]

theorem parseVersion_bounds {b : Bytes} {o : ObjectVersion} (h : parseVersion b = some o) :
    -2 ^ 31 ≤ o.version ∧ o.version < 2 ^ 31 := by
  obtain ⟨⟨a, c⟩, -, rfl⟩ := map_eq_some_iff.mp h
  exact toInt32_bounds _

/-- **増やした値を読むと version は 1 増え、日付は変わらない。** ただし 32 bit に切り詰められる。 -/
theorem parseVersion_bumped (b : Bytes) : parseVersion (bumped 1 b) =
    (parseVersion b).map fun o => ⟨toInt32 (o.version + 1), o.when⟩ := by
  cases hs : splitAtChar 58 (cstr b) with
  | none => simp [bumped, incVersionValue, parseVersion, hs]
  | some p =>
    obtain ⟨a, c⟩ := p
    have hb : bumped 1 b = decInt (toInt64 (strtoll a + 1)) ++ ascii ":" ++ decInt (strtoll c) := by
      simp [bumped, incVersionValue, hs]
    have h1 := Int.le_bmod (x := strtoll a + 1) (m := 2 ^ 64) (by decide)
    have h2 := Int.bmod_lt (x := strtoll a + 1) (m := 2 ^ 64) (by decide)
    rw [hb, parseVersion_dec (by unfold toInt64; omega) (strtoll_bounds c), toInt32_toInt64_add]
    simp [parseVersion, hs, atoi]

theorem adminIncVersion_getElem? (x : Sq3 S) (k k' : Bytes) (delta : Int) :
    (adminIncVersion x k delta).admin[k']? =
      if k = k' then x.admin[k']?.map (bumped delta) else x.admin[k']? := by
  unfold adminIncVersion
  split
  · next h =>
    split
    · next he =>
      subst he
      cases hk : x.admin[k]? with
      | none => rfl
      | some b =>
        rw [hk, bind_some] at h
        simp [bumped, h]
    · rfl
  · next v h =>
    obtain ⟨b, hb, hv⟩ := bind_eq_some_iff.mp h
    have hput : (adminSetGba x k v).admin[k']? = if k = k' then some v else x.admin[k']? := by
      unfold adminSetGba
      split
      · next he => split <;> simp_all
      · simp [ExtTreeMap.getElem?_insert]
    rw [hput]
    split
    · next he => rw [← he, hb, map_some, bumped, hv, getD_some]
    · rfl

theorem writes_adminIncVersion (x : Sq3 S) (k : Bytes) (delta : Int) :
    ∃ calls, Writes x calls (adminIncVersion x k delta) := by
  unfold adminIncVersion
  split
  · exact ⟨[], .refl x⟩
  rename_i v _
  unfold adminSetGba
  split
  · exact ⟨[], .refl x⟩
  · exact writes_adminPut x k v

theorem writes_adminIncAllVersions (x : Sq3 S) (delta : Int) :
    ∃ calls, Writes x calls (adminIncAllVersions x delta) := by
  refine writes_foldl (fun x p => ?_) _ x
  split
  · split
    · exact ⟨[], .refl x⟩
    · exact writes_adminPut x p.1 _
  · exact ⟨[], .refl x⟩

/-! ## 読み直し -/

/-- `__admin_ensure_version` の loop の中身 -/
def adminEnsureTable (x : Sq3 S) (tn : Bytes) : Sq3 S :=
  if x.admin[versionKey tn]?.isSome then x else adminPut x (versionKey tn) (ascii "1:0")

theorem adminEnsureTable_getElem? (tn : Bytes) (h : x.admin[k]? = some v) :
    (adminEnsureTable x tn).admin[k]? = some v := by
  unfold adminEnsureTable
  split
  · exact h
  rename_i hn
  rw [show (adminPut x (versionKey tn) (ascii "1:0")).admin =
    x.admin.insert (versionKey tn) (ascii "1:0") from rfl, ExtTreeMap.getElem?_insert]
  split
  · next he =>
    rw [LawfulEqCmp.eq_of_compare he, h] at hn
    exact absurd rfl hn
  · exact h

theorem foldl_adminEnsureTable_getElem? : ∀ (l : List Bytes) (x : Sq3 S),
    x.admin[k]? = some v → (l.foldl adminEnsureTable x).admin[k]? = some v
  | [], _, h => h
  | tn :: l, _, h => foldl_adminEnsureTable_getElem? l _ (adminEnsureTable_getElem? tn h)

theorem foldl_adminEnsureTable_eq_self : ∀ l : List Bytes,
    (∀ tn ∈ l, x.admin[versionKey tn]?.isSome) → l.foldl adminEnsureTable x = x
  | [], _ => rfl
  | tn :: l, h => by
    rw [foldl_cons, adminEnsureTable, if_pos (h tn mem_cons_self)]
    exact foldl_adminEnsureTable_eq_self l fun u hu => h u (mem_cons_of_mem _ hu)

theorem writes_adminReload (x : Sq3 S) :
    ∃ calls, Writes { x with admin := adminLoadFromTable x.db } calls (adminReload x) := by
  refine writes_foldl (fun x tn => ?_) _ _
  split
  · exact ⟨[], .refl x⟩
  · exact writes_adminPut x _ _

theorem adminReload_eq (h : ∀ tn ∈ S.tables, (adminLoadFromTable x.db)[versionKey tn]?.isSome) :
    adminReload x = { x with admin := adminLoadFromTable x.db } :=
  foldl_adminEnsureTable_eq_self S.tables h

theorem Sq3.Opened.adminReload_eq_self (h : x.Opened) : adminReload x = x := by
  have hc : adminLoadFromTable x.db = x.admin := h.cached.symm
  rw [adminReload_eq (hc ▸ h.versioned), hc]

theorem adminReload_getElem? (h : (adminLoadFromTable x.db)[k]? = some v) :
    (adminReload x).admin[k]? = some v :=
  foldl_adminEnsureTable_getElem? S.tables { x with admin := adminLoadFromTable x.db } h

theorem adminEnsureTable_saved (x : Sq3 S) (saved : Option S.Db) (tn : Bytes) :
    adminEnsureTable { x with saved := saved } tn = { adminEnsureTable x tn with saved := saved } := by
  unfold adminEnsureTable
  split
  · rfl
  cases hr : newRowid (x.db adminName) with
  | none =>
    rw [adminPut_of_none (x := { x with saved := saved }) _ _ hr, adminPut_of_none (x := x) _ _ hr]
  | some r =>
    rw [adminPut_of_some (x := { x with saved := saved }) _ _ hr, adminPut_of_some (x := x) _ _ hr]

theorem adminReload_saved (x : Sq3 S) (saved : Option S.Db) :
    adminReload { x with saved := saved } = { adminReload x with saved := saved } := by
  suffices h : ∀ (l : List Bytes) (x : Sq3 S), l.foldl adminEnsureTable { x with saved := saved } =
      { l.foldl adminEnsureTable x with saved := saved } from
    h S.tables { x with admin := adminLoadFromTable x.db }
  intro l
  induction l with
  | nil => exact fun _ => rfl
  | cons tn l ih =>
    intro x
    rw [foldl_cons, adminEnsureTable_saved, ih, foldl_cons]

/-! ## 読み直しで増える行 -/

/-- `db'` は `db` に version の行が加わっただけのもの -/
structure Reloaded (db db' : S.Db) : Prop where
  kept : ∀ name r a, (db name).get? r = some a → (db' name).get? r = some a
  added : ∀ name r a, (db' name).get? r = some a →
    (db name).get? r = some a ∨ name = adminName ∧ VersionRow a

theorem Reloaded.refl (db : S.Db) : Reloaded db db := ⟨fun _ _ _ => id, fun _ _ _ => .inl⟩

theorem Reloaded.trans (h : Reloaded db db') (h' : Reloaded db' db'') : Reloaded db db'' := by
  refine ⟨fun name r a hr => h'.kept name r a (h.kept name r a hr), fun name r a hr => ?_⟩
  rcases h'.added name r a hr with hr | hv
  · exact h.added name r a hr
  · exact .inr hv

/-- cache には admin table の鍵がすべてある -/
def Sq3.Covers (x : Sq3 S) : Prop :=
  ∀ k v : Bytes, (adminLoadFromTable x.db)[k]? = some v → x.admin[k]?.isSome

theorem reloaded_replaceInto {r : Rowid} {x : Row} (hr : (db adminName).get? r = none)
    (hx : VersionRow x)
    (hfree : ∀ r' a, (db adminName).get? r' = some a → ¬Clash (S.key adminName) x a) :
    Reloaded db (db.set adminName ((db adminName).replaceInto r x)) := by
  refine ⟨fun name r' a hget => ?_, fun name r' a hget => ?_⟩
  · by_cases hname : name = adminName
    · subst hname
      have hne : r' ≠ r := fun he => by rw [he, hr] at hget; cases hget
      rw [Schema.Db.set_self, get?_replaceInto, if_neg hne, hget]
      simp [hfree r' a hget]
    · rw [Schema.Db.set_other _ _ hname]
      exact hget
  by_cases hname : name = adminName
  · subst hname
    rw [Schema.Db.set_self, get?_replaceInto] at hget
    split at hget
    · cases hget
      exact .inr ⟨rfl, hx⟩
    · exact .inl (filter_eq_some_iff.mp hget).1
  · rw [Schema.Db.set_other _ _ hname] at hget
    exact .inl hget

theorem versionRow_adminRow (tn v : Bytes) : VersionRow (adminRow (versionKey tn) v) :=
  ⟨mainName tn, _, [], rfl⟩

theorem reloaded_adminEnsureTable (tn : Bytes) (hc : x.Covers) :
    (adminEnsureTable x tn).Covers ∧ Reloaded x.db (adminEnsureTable x tn).db := by
  unfold adminEnsureTable
  split
  · exact ⟨hc, .refl _⟩
  rename_i hn
  cases hr : newRowid (x.db adminName) with
  | none =>
    rw [adminPut_of_none _ _ hr]
    exact ⟨fun k v hk => isSome_insert (hc k v hk), .refl _⟩
  | some r =>
    rw [adminPut_of_some _ _ hr]
    refine ⟨fun k v hk => ?_,
      reloaded_replaceInto (newRowid_unused hr) (versionRow_adminRow tn _) fun r' a hget hcl => ?_⟩
    · rw [adminLoadFromTable_replaceInto _ _ (newRowid_unused hr), ExtTreeMap.getElem?_insert] at hk
      rw [ExtTreeMap.getElem?_insert]
      split at hk
      · next he => rw [if_pos he]; rfl
      · next he => rw [if_neg he]; exact hc k v hk
    · -- 衝突する行があれば、その鍵は cache にあった
      obtain ⟨v, hv⟩ := adminKv_of_clash hcl (adminKv_adminRow _ _)
      exact hn (hc _ v (adminLoadFromTable_eq_some.mpr ⟨r', a, hget, hv⟩))

theorem reloaded_foldl : ∀ (l : List Bytes) {x : Sq3 S}, x.Covers →
    Reloaded x.db (l.foldl adminEnsureTable x).db
  | [], _, _ => .refl _
  | tn :: l, _, hc =>
    (reloaded_adminEnsureTable tn hc).2.trans (reloaded_foldl l (reloaded_adminEnsureTable tn hc).1)

/-- **読み直しは version の行を加えることしかしない。** -/
theorem reloaded_adminReload (x : Sq3 S) : Reloaded x.db (adminReload x).db :=
  reloaded_foldl S.tables (x := { x with admin := adminLoadFromTable x.db })
    fun k v hk => by rw [hk]; rfl

end Redcurrant.Sqliterepo
