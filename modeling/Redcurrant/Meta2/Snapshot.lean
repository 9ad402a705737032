import Redcurrant.Meta2.Versions

/-!
# snapshot

`m2db_take_snapshot` はどの名前の最新の行も次の version に写し、新しい container の version を付ける。
-/

namespace Redcurrant.Meta2

open Infra Sqliterepo List RowTable

def codeSnapshotExists : Int := 466

namespace Base

variable (b : Base)

/-! ## 行の複製 -/

/-- `GROUP BY alias HAVING version = max(version)` -/
def latestRows : List Alias := b.aliasNames.filterMap b.latestRow

/-- `container_version = ? GROUP BY alias` -/
def recordedRows (choice : Bytes → Nat) (c : Int) : List Alias :=
  b.aliasNames.filterMap fun name =>
    bareRow choice name ((b.aliasRows name).filter (·.containerVersion = c))

/-- `latest_version`。container の version が与えられたときは最新の行を探し直す。 -/
def dupVersion (src : Int) (a : Alias) : Int :=
  if 1 ≤ src then ((b.latestRow a.alias).map Alias.version).getD a.version else a.version

/-- `m2v2_dup_alias` -/
def dupAliasInto (src cVersion : Int) (setDeleted overwriteLatest : Bool) (b : Base)
    (a : Alias) : Base :=
  b.save (.aliases (dupAlias cVersion setDeleted overwriteLatest (b.dupVersion src a) a))

/-- `m2db_dup_all_aliases` -/
def dupAllAliases (choice : Bytes → Nat) (src : Int) (setDeleted overwriteLatest : Bool) : Base :=
  let rows := if src < 1 then b.latestRows else b.recordedRows choice src
  rows.foldl (dupAliasInto src b.version setDeleted overwriteLatest) b

/-! ## snapshot の操作 -/

/-- `m2db_take_snapshot` -/
def takeSnapshot (choice : Bytes → Nat) (name : Bytes) : Base :=
  let b' := b.dupAllAliases choice (-1) false false
  b'.save (.snapshots ⟨1 + b'.version, name⟩)

/-- `m2db_restore_snapshot` -/
def restoreSnapshot (choice : Bytes → Nat) (s : Snapshot) (hardRestore : Bool) : Base :=
  if hardRestore then
    { b with
      aliases := b.aliases.delete fun a => decide (s.version < a.containerVersion)
      snapshots := b.snapshots.delete fun t => decide (s.version < t.version) }
  else
    (b.dupAllAliases choice (-1) true false).dupAllAliases choice s.version false true

/-- `meta2_backend_take_snapshot` -/
def backendTakeSnapshot (choice : Bytes → Nat) (maxVersions : Int) (name : Bytes) :
    Except GError Base :=
  if ¬ VersionsEnabled maxVersions then
    .error ⟨codeBadRequest, "Versioning disabled, cannot take snapshot"⟩
  else match b.getSnapshotByName name with
    | .ok _ => .error ⟨codeSnapshotExists, "Snapshot '" ++ text name ++ "' already exists"⟩
    | .error _ => .ok (b.takeSnapshot choice name).incrementVersion

/-- path の無い URL についての `meta2_backend_restore_snapshot` -/
def backendRestoreSnapshot (choice : Bytes → Nat) (maxVersions : Int) (name : Bytes)
    (hardRestore : Bool) : Except GError Base :=
  if ¬ VersionsEnabled maxVersions then
    .error ⟨codeBadRequest, "Versioning disabled, cannot restore snapshot"⟩
  else match b.getSnapshotByName name with
    | .ok s => .ok (b.restoreSnapshot choice s hardRestore).incrementVersion
    | .error e => .error (prefixError ("Failed to restore snapshot '" ++ text name ++ "': ") e)

/-! ## 選ばれる行 -/

section

variable {b} {a r : Alias} {name : Bytes} {choice : Bytes → Nat} {c : Int}

theorem mem_latestRows : a ∈ b.latestRows ↔ b.latestRow a.alias = some a := by
  simp only [latestRows, mem_filterMap, mem_aliasNames]
  constructor
  · rintro ⟨n, -, hl⟩
    rw [(latestRow_mem hl).2]
    exact hl
  · intro hl
    exact ⟨a.alias, ⟨a, (latestRow_mem hl).1, rfl⟩, hl⟩

theorem mem_recordedRows : a ∈ b.recordedRows choice c ↔
    bareRow choice a.alias ((b.aliasRows a.alias).filter (·.containerVersion = c)) = some a := by
  simp only [recordedRows, mem_filterMap, mem_aliasNames]
  constructor
  · rintro ⟨n, -, hb⟩
    have hm := mem_of_mem_filter (mem_of_getElem? hb)
    rw [(mem_aliasRows.mp hm).2]
    exact hb
  · intro hb
    have hm := mem_of_mem_filter (mem_of_getElem? hb)
    exact ⟨a.alias, ⟨a, (mem_aliasRows.mp hm).1, rfl⟩, hb⟩

theorem mem_recordedRows_of_unique (ha : a ∈ b.aliases.rows) (hc : a.containerVersion = c)
    (hu : ∀ r ∈ b.aliases.rows, r.alias = a.alias → r.containerVersion = c → r = a) :
    a ∈ b.recordedRows choice c := by
  have hmem : a ∈ (b.aliasRows a.alias).filter (·.containerVersion = c) :=
    mem_filter.mpr ⟨mem_aliasRows.mpr ⟨ha, rfl⟩, decide_eq_true hc⟩
  obtain ⟨r, hr⟩ : ∃ r, bareRow choice a.alias
      ((b.aliasRows a.alias).filter (·.containerVersion = c)) = some r := by
    refine ⟨_, List.getElem?_eq_getElem (Nat.mod_lt _ (length_pos_of_mem hmem))⟩
  obtain ⟨hrm, hrc⟩ := mem_filter.mp (mem_of_getElem? hr)
  obtain ⟨hrm, hrn⟩ := mem_aliasRows.mp hrm
  have he : r = a := hu r hrm hrn (by simpa using hrc)
  exact mem_recordedRows.mpr (he ▸ hr)

theorem pairwise_alias {f : Bytes → Option Alias} (hf : ∀ n x, f n = some x → x.alias = n) :
    (b.aliasNames.filterMap f).Pairwise fun x y => x.alias ≠ y.alias := by
  refine List.Pairwise.filterMap f ?_ (nodup_dedup (b.aliases.rows.map Alias.alias))
  intro n n' hne x hx y hy
  rw [hf n x hx, hf n' y hy]
  exact hne

theorem pairwise_latestRows (b : Base) : b.latestRows.Pairwise fun x y => x.alias ≠ y.alias :=
  pairwise_alias fun _ _ h => (latestRow_mem h).2

theorem pairwise_recordedRows (b : Base) (choice : Bytes → Nat) (c : Int) :
    (b.recordedRows choice c).Pairwise fun x y => x.alias ≠ y.alias :=
  pairwise_alias fun _ _ h => (mem_aliasRows.mp (mem_of_mem_filter (mem_of_getElem? h))).2

end

/-! ## 複製した後の行 -/

section

variable {b} {b' : Base} {a r w : Alias} {name : Bytes} {rows ws : List Alias}

theorem eq_of_pairwise_alias (h : ws.Pairwise fun x y => x.alias ≠ y.alias) (ha : a ∈ ws)
    (hr : r ∈ ws) (hn : a.alias = r.alias) : a = r := by
  by_contra hne
  have hsymm : Std.Symm fun x y : Alias => x.alias ≠ y.alias := ⟨fun _ _ h => h.symm⟩
  exact h.forall ha hr hne hn

theorem aliasRows_save_ne (hn : a.alias ≠ name) :
    (b.save (.aliases a)).aliasRows name = b.aliasRows name := by
  simp only [aliasRows, save, replaceInto, erase, delete, filter_append, filter_filter]
  have hsingle : [a].filter (fun x => decide (x.alias = name)) = [] := by simp [hn]
  rw [hsingle, append_nil]
  refine filter_congr fun x _ => ?_
  by_cases hx : x.alias = name
  · have hc : ¬ Clash Alias.pk a x := fun hc => hn ((clash_alias.mp hc).1.trans hx)
    simp [hx, hc]
  · simp [hx]

theorem dupVersion_save_ne (src : Int) (hn : a.alias ≠ r.alias) :
    (b.save (.aliases a)).dupVersion src r = b.dupVersion src r := by
  simp only [dupVersion, latestRow, aliasRows_save_ne hn]

theorem foldl_dupAliasInto (src cv : Int) (sd ow : Bool)
    (h : rows.Pairwise fun x y => x.alias ≠ y.alias) :
    rows.foldl (dupAliasInto src cv sd ow) b = { b with
      aliases := b.aliases.replaceAll
        (rows.map fun a => dupAlias cv sd ow (b.dupVersion src a) a) } := by
  induction rows generalizing b with
  | nil => rfl
  | cons x rows ih =>
    obtain ⟨hx, hrows⟩ := pairwise_cons.mp h
    have hmap : rows.map (fun a => dupAlias cv sd ow ((dupAliasInto src cv sd ow b x).dupVersion
        src a) a) = rows.map fun a => dupAlias cv sd ow (b.dupVersion src a) a := by
      refine map_congr_left fun a ha => ?_
      have hn : (dupAlias cv sd ow (b.dupVersion src x) x).alias ≠ a.alias := hx a ha
      rw [dupAliasInto, dupVersion_save_ne src hn]
    rw [foldl_cons, ih hrows, hmap]
    rfl

theorem latestRow_replaceAll (hb : b'.aliases = b.aliases.replaceAll ws)
    (hd : ws.Pairwise fun x y => x.alias ≠ y.alias)
    (hmax : ∀ w ∈ ws, ∀ a ∈ b.aliases.rows, a.alias = w.alias → a.version ≤ w.version) :
    (∀ w ∈ ws, b'.latestRow w.alias = some w) ∧
      ∀ n, (∀ w ∈ ws, w.alias ≠ n) → b'.latestRow n = b.latestRow n := by
  have hfrom : ∀ a ∈ b'.aliases.rows, a ∈ ws ∨ a ∈ b.aliases.rows := by
    intro a ha
    rw [hb] at ha
    exact mem_of_replaceAll _ ha
  constructor
  · intro w hw
    refine latestRow_eq_some ?_ rfl fun a ha hn => ?_
    · rw [hb]
      refine mem_replaceAll _ (.inl hw) fun x hx hc => ?_
      exact eq_of_pairwise_alias hd hx hw (clash_alias.mp hc).1
    rcases hfrom a ha with ha | ha
    · rw [eq_of_pairwise_alias hd ha hw hn]
    · exact hmax w hw a ha hn
  · intro n hn
    have hold : ∀ a ∈ b'.aliases.rows, a.alias = n → a ∈ b.aliases.rows := by
      intro a ha han
      exact (hfrom a ha).resolve_left fun hw => hn a hw han
    cases hl : b.latestRow n with
    | none =>
      cases hl' : b'.latestRow n with
      | none => rfl
      | some z =>
        obtain ⟨hzm, hzn⟩ := latestRow_mem hl'
        exact absurd hzn (no_row_of_latestRow_none hl (hold z hzm hzn))
    | some z =>
      obtain ⟨hzm, hzn⟩ := latestRow_mem hl
      refine latestRow_eq_some ?_ hzn fun a ha han => latestRow_le hl (hold a ha han) han
      rw [hb]
      refine mem_replaceAll _ (.inr hzm) fun x hx hc => ?_
      exact absurd ((clash_alias.mp hc).1.trans hzn) (hn x hx)

/-! ### 最新の行の複製 -/

/-- 最新の行を次の version に写した base -/
structure Duplicated (b : Base) (sd : Bool) (b' : Base) : Prop where
  latest : ∀ n, b'.latestRow n =
    (b.latestRow n).map fun z => dupAlias b.version sd false z.version z
  old : ∀ a ∈ b.aliases.rows, a ∈ b'.aliases.rows
  source : ∀ a ∈ b'.aliases.rows, a ∈ b.aliases.rows ∨
    ∃ z, b.latestRow z.alias = some z ∧ a = dupAlias b.version sd false z.version z
  version : b'.version = b.version
  headers : b'.headers = b.headers
  contents : b'.contents = b.contents
  chunks : b'.chunks = b.chunks

theorem duplicated_dupAllAliases (b : Base) (choice : Bytes → Nat) (sd : Bool) :
    b.Duplicated sd (b.dupAllAliases choice (-1) sd false) := by
  have hrun : b.dupAllAliases choice (-1) sd false = { b with
      aliases := b.aliases.replaceAll
        (b.latestRows.map fun z => dupAlias b.version sd false z.version z) } := by
    exact foldl_dupAliasInto (-1) b.version sd false (pairwise_latestRows b)
  have hpair : (b.latestRows.map fun z => dupAlias b.version sd false z.version z).Pairwise
      fun x y => x.alias ≠ y.alias :=
    pairwise_map.mpr (pairwise_latestRows b)
  have hfree : ∀ w ∈ b.latestRows.map fun z => dupAlias b.version sd false z.version z,
      ∀ a ∈ b.aliases.rows, a.alias = w.alias → a.version < w.version := by
    intro w hw a ha hn
    obtain ⟨z, hz, rfl⟩ := mem_map.mp hw
    have hle := latestRow_le (mem_latestRows.mp hz) ha hn
    simp only [dupAlias, Bool.false_eq_true, if_false]
    omega
  have haliases : (b.dupAllAliases choice (-1) sd false).aliases = b.aliases.replaceAll
      (b.latestRows.map fun z => dupAlias b.version sd false z.version z) := by rw [hrun]
  obtain ⟨hnew, hsame⟩ := latestRow_replaceAll haliases hpair fun w hw a ha hn =>
    (hfree w hw a ha hn).le
  refine ⟨fun n => ?_, fun a ha => ?_, fun a ha => ?_, by rw [hrun], by rw [hrun],
    by rw [hrun], by rw [hrun]⟩
  · cases hl : b.latestRow n with
    | none =>
      rw [hsame n ?_, hl]
      · rfl
      intro w hw hn
      obtain ⟨z, hz, rfl⟩ := mem_map.mp hw
      have hz' : b.latestRow n = some z := hn ▸ mem_latestRows.mp hz
      rw [hl] at hz'
      cases hz'
    | some z =>
      have hzn := (latestRow_mem hl).2
      have hz : z ∈ b.latestRows := mem_latestRows.mpr (hzn.symm ▸ hl)
      have := hnew _ (mem_map_of_mem hz)
      rw [← hzn]
      exact this
  · rw [hrun]
    refine mem_replaceAll _ (.inr ha) fun x hx hc => ?_
    obtain ⟨hn, hv⟩ := clash_alias.mp hc
    exact absurd hv (ne_of_gt (hfree x hx a ha hn.symm))
  · rw [hrun] at ha
    rcases mem_of_replaceAll _ ha with hw | ho
    · obtain ⟨z, hz, rfl⟩ := mem_map.mp hw
      exact .inr ⟨z, mem_latestRows.mp hz, rfl⟩
    · exact .inl ho

/-! ### snapshot を取った後 -/

variable {choice : Bytes → Nat} {c m : Int}

theorem mem_takeSnapshot (choice : Bytes → Nat) (name : Bytes)
    (hfresh : ∀ a ∈ b.aliases.rows, a.containerVersion ≠ 1 + b.version)
    (hc : a.containerVersion = 1 + b.version) : a ∈ (b.takeSnapshot choice name).aliases.rows ↔
      ∃ z, b.latestRow z.alias = some z ∧ a = dupAlias b.version false false z.version z := by
  have hd := duplicated_dupAllAliases b choice false
  constructor
  · intro ha
    exact (hd.source a ha).resolve_left fun ho => hfresh a ho hc
  · rintro ⟨z, hz, rfl⟩
    have hl := hd.latest z.alias
    rw [hz] at hl
    exact (latestRow_mem hl).1

theorem backendTakeSnapshot_eq_ok (h : b.backendTakeSnapshot choice m name = .ok b') :
    b' = (b.takeSnapshot choice name).incrementVersion ∧
      b'.getSnapshotByName name = .ok ⟨1 + b.version, name⟩ := by
  simp only [backendTakeSnapshot] at h
  split at h
  · cases h
  split at h
  · cases h
  cases h
  have hv : (b.dupAllAliases choice (-1) false false).version = b.version :=
    (duplicated_dupAllAliases b choice false).version
  simp [getSnapshotByName, getSnapshots, incrementVersion, takeSnapshot, save, hv, replaceInto]

/-! ### soft の復元の後 -/

/-- 復元した base では snapshot の行の写しが最新になり、ほかの名前の最新の行には削除の印がある -/
structure Restored (c : Int) (b b' : Base) : Prop where
  recorded : ∀ a ∈ b.aliases.rows, a.containerVersion = c →
    ∃ v cv, b'.latestRow a.alias = some { a with version := v, containerVersion := cv }
  others : ∀ n, (∀ a ∈ b.aliases.rows, a.containerVersion = c → a.alias ≠ n) →
    ∀ r, b'.latestRow n = some r → r.deleted = true
  kept : ∀ a ∈ b.aliases.rows, a.containerVersion = c → a ∈ b'.aliases.rows
  headers : b'.headers = b.headers
  contents : b'.contents = b.contents
  chunks : b'.chunks = b.chunks

theorem restored_restoreSnapshot (hc : 1 ≤ c) (hv : c ≤ b.version)
    (hu : ∀ a ∈ b.aliases.rows, ∀ r ∈ b.aliases.rows, a.containerVersion = c →
      r.containerVersion = c → r.alias = a.alias → r = a) :
    b.Restored c (b.restoreSnapshot choice ⟨c, name⟩ false) := by
  have hdup := duplicated_dupAllAliases b choice true
  generalize hb1 : b.dupAllAliases choice (-1) true false = b1 at hdup
  obtain ⟨hlatest, hold, hsource, hv1, hheaders, hcontents, hchunks⟩ := hdup
  -- 印の行の container の version は新しいので、snapshot の行は印を書く前からあった
  have hmem : ∀ a, a.containerVersion = c → (a ∈ b1.aliases.rows ↔ a ∈ b.aliases.rows) := by
    intro a hac
    refine ⟨fun ha => (hsource a ha).resolve_right ?_, hold a⟩
    rintro ⟨z, -, rfl⟩
    simp only [dupAlias] at hac
    omega
  have hrec : ∀ a, a ∈ b1.recordedRows choice c ↔ a ∈ b.aliases.rows ∧ a.containerVersion = c := by
    intro a
    constructor
    · intro ha
      obtain ⟨hm, hac⟩ := mem_filter.mp (mem_of_getElem? (mem_recordedRows.mp ha))
      rw [decide_eq_true_eq] at hac
      exact ⟨(hmem a hac).mp (mem_aliasRows.mp hm).1, hac⟩
    · rintro ⟨ha, hac⟩
      refine mem_recordedRows_of_unique ((hmem a hac).mpr ha) hac fun r hr hn hrc => ?_
      exact hu a ha r ((hmem r hrc).mp hr) hac hrc hn
  have hrun : b.restoreSnapshot choice ⟨c, name⟩ false = { b1 with
      aliases := b1.aliases.replaceAll ((b1.recordedRows choice c).map fun a =>
        dupAlias b1.version false true (b1.dupVersion c a) a) } := by
    simp only [restoreSnapshot, Bool.false_eq_true, if_false, hb1]
    rw [dupAllAliases, if_neg (by omega)]
    exact foldl_dupAliasInto c b1.version false true (pairwise_recordedRows b1 choice c)
  -- 写しは名前の最新の行である印の上に書かれる
  have hover : ∀ a ∈ b.aliases.rows, ∃ z, b.latestRow a.alias = some z ∧
      b1.dupVersion c a = z.version + 1 := by
    intro a ha
    cases hz : b.latestRow a.alias with
    | none => exact absurd rfl (no_row_of_latestRow_none hz ha)
    | some z =>
      refine ⟨z, rfl, ?_⟩
      simp only [dupVersion, if_pos hc, hlatest, hz, Option.map_some, Option.getD_some, dupAlias,
        Bool.false_eq_true, if_false]
      omega
  have hlast : ∀ a ∈ b.aliases.rows, ∀ r ∈ b1.aliases.rows, r.alias = a.alias →
      r.version ≤ b1.dupVersion c a := by
    intro a ha r hr hn
    obtain ⟨z, hz, hd⟩ := hover a ha
    have hl := hlatest a.alias
    rw [hz] at hl
    have := latestRow_le hl hr hn
    simp only [dupAlias, Bool.false_eq_true, if_false] at this
    omega
  have hpair : ((b1.recordedRows choice c).map fun a =>
      dupAlias b1.version false true (b1.dupVersion c a) a).Pairwise fun x y => x.alias ≠ y.alias :=
    pairwise_map.mpr (pairwise_recordedRows b1 choice c)
  have hmax : ∀ w ∈ (b1.recordedRows choice c).map fun a =>
      dupAlias b1.version false true (b1.dupVersion c a) a,
      ∀ r ∈ b1.aliases.rows, r.alias = w.alias → r.version ≤ w.version := by
    intro w hw r hr hn
    obtain ⟨a, ha, rfl⟩ := mem_map.mp hw
    simpa [dupAlias] using hlast a ((hrec a).mp ha).1 r hr hn
  have haliases : (b.restoreSnapshot choice ⟨c, name⟩ false).aliases = b1.aliases.replaceAll
      ((b1.recordedRows choice c).map fun a =>
        dupAlias b1.version false true (b1.dupVersion c a) a) := by rw [hrun]
  obtain ⟨hnew, hsame⟩ := latestRow_replaceAll haliases hpair hmax
  refine ⟨fun a ha hac => ?_, fun n hn r hr => ?_, fun a ha hac => ?_, ?_, ?_, ?_⟩
  · have hw := hnew _ (mem_map_of_mem ((hrec a).mpr ⟨ha, hac⟩))
    exact ⟨_, _, hw⟩
  · have hnone : ∀ w ∈ (b1.recordedRows choice c).map fun a =>
        dupAlias b1.version false true (b1.dupVersion c a) a, w.alias ≠ n := by
      intro w hw
      obtain ⟨a, ha, rfl⟩ := mem_map.mp hw
      obtain ⟨ham, hac⟩ := (hrec a).mp ha
      exact hn a ham hac
    rw [hsame n hnone, hlatest] at hr
    obtain ⟨z, -, rfl⟩ := Option.map_eq_some_iff.mp hr
    rfl
  · rw [hrun]
    refine mem_replaceAll _ (.inr (hold a ha)) fun w hw hcl => ?_
    obtain ⟨r, hr, rfl⟩ := mem_map.mp hw
    obtain ⟨hrm, -⟩ := (hrec r).mp hr
    obtain ⟨hn, hver⟩ := clash_alias.mp hcl
    obtain ⟨z, hz, hd⟩ := hover r hrm
    have hle := latestRow_le hz ha hn.symm
    simp only [dupAlias, if_true] at hver
    omega
  · rw [hrun]
    exact hheaders
  · rw [hrun]
    exact hcontents
  · rw [hrun]
    exact hchunks

end

end Base

end Redcurrant.Meta2
