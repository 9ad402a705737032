import Mathlib.Data.List.Dedup
import Redcurrant.Meta2.Lookup

/-!
# purge

`m2db_purge`。多すぎる version、古い削除済みの alias、指されない行を消し、size を計算し直す。
-/

namespace Redcurrant.Meta2

open Infra Sqliterepo List

namespace Base

variable (b : Base)

/-! ## 多すぎる version -/

/-- `container_version IN (SELECT version FROM snapshot_v2)` -/
def inSnapshot (a : Alias) : Bool := b.snapshots.rows.any (·.version = a.containerVersion)

/-- `GROUP BY alias` の group の名前 -/
def aliasNames : List Bytes := (b.aliases.rows.map Alias.alias).dedup

def freeRows (name : Bytes) : List Alias := (b.aliasRows name).filter (!b.inSnapshot ·)

/-- 残す version の数。version を扱わない container では 1。 -/
def keptVersions (maxVersions : Int) : Int :=
  if VersionsEnabled maxVersions then maxVersions else 1

/-- `sql_lookup` の `count(*)` -/
def liveCount (name : Bytes) : Nat := (b.freeRows name).countP (!·.deleted)

/-- 1 つの名前について消す行（`sql_delete`） -/
def exceedingRows (max : Int) (name : Bytes) : List Alias :=
  if max < b.liveCount name then
    (orderBy Alias.version (b.freeRows name)).take (b.liveCount name - max).toNat
  else []

/-- `_purge_exceeding_aliases`。名前ごとに消す。 -/
def purgeExceedingAliases (maxVersions : Int) : Base × List Alias :=
  if VersionsUnlimited maxVersions then (b, [])
  else
    let dropped := b.aliasNames.flatMap (b.exceedingRows (keptVersions maxVersions))
    ({ b with aliases := b.aliases.eraseAll dropped }, dropped)

/-! ## 古い削除済みの alias -/

/-- 集約されない列の値を与える行 -/
def bareRow (choice : Bytes → Nat) (name : Bytes) (group : List Alias) : Option Alias :=
  group[choice name % group.length]?

def timeLimit (now delay : Int) : Int := if 0 ≤ delay ∧ delay < now then now - delay else 0

/-- `sql` が選ぶ名前。group の任意の 1 行が削除済みで古い。 -/
def expired (choice : Bytes → Nat) (limit : Int) (name : Bytes) : Bool :=
  (bareRow choice name (b.aliasRows name)).any fun a => a.deleted && decide (a.ctime < limit)

/-- `sql2` の group。削除済みの行を持つ名前の snapshot に属する行で、`HAVING max(version)` は最大が 0 の group を除く。 -/
def snapshotGroup (name : Bytes) : List Alias :=
  let group :=
    if (b.aliasRows name).any Alias.deleted then (b.aliasRows name).filter b.inSnapshot else []
  if (maxRow Alias.version group).any (·.version ≠ 0) then group else []

/-- `sql2` が選ぶ行 -/
def oldDeleted (choice : Bytes → Nat) : List Alias :=
  b.aliasNames.filterMap fun name => bareRow choice name (b.snapshotGroup name)

/-- `m2v2_dup_alias` が保存する行 -/
def dupAlias (cVersion : Int) (setDeleted overwriteLatest : Bool) (latestVersion : Int)
    (a : Alias) : Alias :=
  { a with
    version := (if overwriteLatest then 0 else 1) + latestVersion
    containerVersion := 1 + cVersion
    deleted := setDeleted || a.deleted }

/-- snapshot の行を削除済みの新しい version として写す -/
def redeleted (a : Alias) : Alias := dupAlias b.version true false a.version a

/-- `_purge_deleted_aliases`。`choice₂` は写す行、`choice₁` は消す名前を決める。 -/
def purgeDeletedAliases (choice₁ choice₂ : Bytes → Nat) (now delay : Int) :
    Except GError (Base × List Alias) :=
  if now < 0 then .error ⟨codeInternalError, "Cannot get current time: "⟩
  else
    let old := b.oldDeleted choice₂
    let dropped := b.aliases.rows.filter fun a =>
      b.expired choice₁ (timeLimit now delay) a.alias && !b.inSnapshot a
    let b' := { b with aliases := b.aliases.eraseAll dropped }
    let marked := (old.filter fun a => !a.deleted).map b.redeleted
    .ok ({ b' with aliases := b'.aliases.replaceAll marked }, dropped)

/-! ## 指されない行 -/

/-- `DELETE FROM properties_v2` -/
def purgeProperties : Base :=
  { b with properties := b.properties.delete fun p => !b.aliases.rows.any (·.alias = p.alias) }

/-- `DELETE FROM content_header_v2` -/
def purgeHeaders : Base :=
  { b with headers := b.headers.delete fun h => !b.aliases.rows.any (·.contentId = h.id) }

/-- `DELETE FROM content_v2` -/
def purgeContents : Base :=
  { b with contents := b.contents.delete fun c =>
      !b.aliases.rows.any (·.contentId = c.contentId) }

/-- `_get_chunks_to_drop` -/
def chunksToDrop : List Chunk :=
  b.chunks.rows.filter fun k => !b.contents.rows.any (·.chunkId = k.id)

/-- `DELETE FROM chunk_v2` -/
def purgeChunks : Base :=
  { b with chunks := b.chunks.delete fun k => !b.contents.rows.any (·.chunkId = k.id) }

/-- `m2db_get_container_size` -/
def getContainerSize (checkAlias : Bool) : Int :=
  ((b.headers.rows.filter fun h =>
    !checkAlias || b.aliases.rows.any (·.contentId = h.id)).map Header.size).sum

/-- purge の入力。`dryRun` では base を変えず、`cb` が無ければ chunk を残す。 -/
structure PurgeArgs where
  (maxVersions retentionDelay : Int)
  (dryRun cb : Bool)
  now : Int
  (choice₁ choice₂ : Bytes → Nat)

/-- alias の purge。途中の error は記録だけされる。 -/
def purgeAliases (args : PurgeArgs) : Base × List Alias :=
  let (b₁, out₁) := b.purgeExceedingAliases args.maxVersions
  if 0 ≤ args.retentionDelay then
    match b₁.purgeDeletedAliases args.choice₁ args.choice₂ args.now args.retentionDelay with
    | .ok (b₂, out₂) => (b₂, out₁ ++ out₂)
    | .error _ => (b₁, out₁)
  else (b₁, out₁)

/-- alias と、指されなくなった行の purge -/
def purgeRows (args : PurgeArgs) : Base × List Alias :=
  let (b₁, out) := b.purgeAliases args
  (b₁.purgeProperties.purgeHeaders.purgeContents, out)

/-- `m2db_purge` -/
def purge (args : PurgeArgs) : Base × List Bean :=
  if args.dryRun then
    (b, if args.cb then b.chunksToDrop.map .chunks else [])
  else
    let (b₁, out) := b.purgeRows args
    let b₂ := if args.cb then b₁.purgeChunks else b₁
    (b₂.setSize (b₂.getContainerSize false),
      out.map .aliases ++ if args.cb then b₁.chunksToDrop.map .chunks else [])

/-! ## 残る version -/

section

variable {b} {name : Bytes} {a : Alias}

theorem mem_aliasNames : name ∈ b.aliasNames ↔ ∃ a ∈ b.aliases.rows, a.alias = name := by
  simp [aliasNames]

theorem version_inj (b : Base) (name : Bytes) : ∀ a ∈ b.aliasRows name, ∀ r ∈ b.aliasRows name,
    a.version = r.version → a = r := by
  intro a ha r hr hv
  obtain ⟨hma, hna⟩ := mem_aliasRows.mp ha
  obtain ⟨hmr, hnr⟩ := mem_aliasRows.mp hr
  exact alias_unique hma hmr (hna.trans hnr.symm) hv

theorem nodup_aliases (b : Base) : b.aliases.rows.Nodup :=
  b.aliases.unique.imp fun {a r} h (he : a = r) => h (clash_alias.mpr (he ▸ ⟨rfl, rfl⟩))

theorem nodup_aliasRows (b : Base) (name : Bytes) : (b.aliasRows name).Nodup :=
  b.nodup_aliases.filter _

theorem snapshotGroup_subset (h : a ∈ b.snapshotGroup name) : a ∈ b.aliasRows name := by
  simp only [snapshotGroup] at h
  split at h
  · split at h
    · exact mem_of_mem_filter h
    · cases h
  · simp at h

def liveVersions (b : Base) (name : Bytes) : List Alias :=
  (orderBy Alias.version (b.aliasRows name)).filter (!·.deleted)

theorem mem_freeRows : a ∈ b.freeRows name ↔
    a ∈ b.aliases.rows ∧ a.alias = name ∧ b.inSnapshot a = false := by
  simp [freeRows, and_assoc]

theorem mem_of_mem_exceedingRows {max : Int} (h : a ∈ b.exceedingRows max name) :
    a ∈ b.freeRows name := by
  simp only [exceedingRows] at h
  split at h
  · exact mem_orderBy.mp (mem_of_mem_take h)
  · cases h

theorem aliasRows_purgeExceeding {m : Int} (hm : ¬ VersionsUnlimited m) :
    (b.purgeExceedingAliases m).1.aliasRows name = (b.aliasRows name).filter
      fun a => decide (a ∉ b.exceedingRows (keptVersions m) name) := by
  have hsub : ∀ a ∈ b.aliasNames.flatMap (b.exceedingRows (keptVersions m)),
      a ∈ b.aliases.rows := by
    intro a ha
    obtain ⟨n, -, ha⟩ := mem_flatMap.mp ha
    exact (mem_freeRows.mp (mem_of_mem_exceedingRows ha)).1
  simp only [purgeExceedingAliases, if_neg hm, aliasRows]
  rw [RowTable.rows_eraseAll_of_subset _ (fun _ => rfl) hsub, filter_filter, filter_filter]
  refine filter_congr fun a ha => ?_
  rw [Bool.eq_iff_iff]
  simp only [Bool.and_eq_true, decide_eq_true_eq, mem_flatMap, not_exists, not_and]
  constructor
  · rintro ⟨rfl, h⟩
    exact ⟨h a.alias (mem_aliasNames.mpr ⟨a, ha, rfl⟩), rfl⟩
  · rintro ⟨h, rfl⟩
    refine ⟨rfl, fun n _ hn => ?_⟩
    rw [← (mem_freeRows.mp (mem_of_mem_exceedingRows hn)).2.1] at hn
    exact h hn

theorem freeRows_of_no_snapshot (hs : b.snapshots.rows = []) (name : Bytes) :
    b.freeRows name = b.aliasRows name := by
  simp [freeRows, inSnapshot, hs]

theorem liveCount_of_no_snapshot (hs : b.snapshots.rows = []) (name : Bytes) :
    b.liveCount name = (b.liveVersions name).length := by
  rw [liveCount, freeRows_of_no_snapshot hs, countP_eq_length_filter]
  exact ((perm_orderBy _ _).filter _).length_eq.symm

section

variable {m : Int} (hm : 1 ≤ m) (hs : b.snapshots.rows = []) (name : Bytes)
include hm hs

theorem orderBy_purgeExceeding :
    orderBy Alias.version ((b.purgeExceedingAliases m).1.aliasRows name) =
      (orderBy Alias.version (b.aliasRows name)).drop ((b.liveVersions name).length - m.toNat) := by
  have hu : ¬ VersionsUnlimited m := by
    simp only [VersionsUnlimited]
    omega
  have hk : keptVersions m = m := by
    by_cases he : VersionsEnabled m
    · exact if_pos he
    rw [keptVersions]
    simp only [VersionsEnabled, not_or] at he
    omega
  have hnd : (orderBy Alias.version (b.aliasRows name)).Nodup :=
    (perm_orderBy _ _).nodup_iff.mpr (b.nodup_aliasRows name)
  rw [aliasRows_purgeExceeding hu, orderBy_filter _ (b.version_inj name), hk, exceedingRows,
    liveCount_of_no_snapshot hs, freeRows_of_no_snapshot hs]
  by_cases hlt : m < (b.liveVersions name).length
  · have hsub : ((b.liveVersions name).length - m).toNat =
        (b.liveVersions name).length - m.toNat := by omega
    simp only [if_pos hlt, hsub]
    exact filter_notMem_take hnd _
  · have hzero : (b.liveVersions name).length - m.toNat = 0 := by omega
    simp [if_neg hlt, hzero]

theorem liveVersions_purgeExceeding_iff :
    (b.purgeExceedingAliases m).1.liveVersions name = (b.liveVersions name).rtake m.toNat ↔
      ∀ a ∈ (orderBy Alias.version (b.aliasRows name)).take
        ((b.liveVersions name).length - m.toNat), a.deleted = false := by
  rw [liveVersions, orderBy_purgeExceeding hm hs]
  by_cases hle : m.toNat ≤ (b.liveVersions name).length
  · simpa [liveVersions] using filter_drop_eq_rtake_iff hle
  have hzero : (b.liveVersions name).length - m.toNat = 0 := by omega
  rw [rtake, hzero]
  simp [liveVersions]

end

/-- purge の後に、名前ごとに新しい `n` 個までの印の無い version がちょうど残り、`n` 個以下の名前では 1 つも消えない -/
structure KeepsNewest (b : Base) (n : Nat) (b' : Base) : Prop where
  newest : ∀ name, b'.liveVersions name = (b.liveVersions name).rtake n
  few : ∀ a ∈ b.aliases.rows, a.deleted = false → (b.liveVersions a.alias).length ≤ n →
    a ∈ b'.aliases.rows

/-- **多すぎる version の purge。** snapshot の無い base で、新しい `n` 個の印の無い version がちょうど残るのは、超えた数だけ
古い方から取った version に印の付いたものが無いときに限る。 -/
theorem purgeExceeding_keepsNewest_iff (b : Base) (n : Int) (hn : 1 ≤ n)
    (hs : b.snapshots.rows = []) :
    KeepsNewest b n.toNat (b.purgeExceedingAliases n).1 ↔ ∀ name, n < (b.liveVersions name).length →
        ∀ a ∈ (orderBy Alias.version (b.aliasRows name)).take
          ((b.liveVersions name).length - n.toNat), a.deleted = false := by
  constructor
  · intro h name _
    exact (liveVersions_purgeExceeding_iff hn hs name).mp (h.newest name)
  · intro h
    have hnewest : ∀ name, (b.purgeExceedingAliases n).1.liveVersions name =
        (b.liveVersions name).rtake n.toNat := by
      intro name
      refine (liveVersions_purgeExceeding_iff hn hs name).mpr ?_
      by_cases hlt : n < (b.liveVersions name).length
      · exact h name hlt
      · have hzero : (b.liveVersions name).length - n.toNat = 0 := by omega
        simp [hzero]
    refine ⟨hnewest, fun a ha hd hle => ?_⟩
    have hmem : a ∈ b.liveVersions a.alias := by
      simp [liveVersions, ha, hd]
    have hrt : (b.liveVersions a.alias).rtake n.toNat = b.liveVersions a.alias := by
      simp [rtake, Nat.sub_eq_zero_of_le hle]
    rw [← hrt, ← hnewest] at hmem
    exact (mem_aliasRows.mp (mem_orderBy.mp (mem_of_mem_filter hmem))).1

/-! ### 印のある古い version -/

/-- 印のある version 1 の後に、印の無い version が 2 つある base -/
def deletedFirst : Base :=
  let row (v : Int) (d : Bool) : Alias := ⟨ascii "a", v, v, ascii "x", [], 0, d⟩
  { Base.init with aliases := ⟨[row 1 true, row 2 false, row 3 false], by decide +kernel⟩ }

/-- 超えた 1 つが印のある version 1 で、2 つが残る -/
theorem purgeExceeding_deletedFirst : deletedFirst.snapshots.rows = [] ∧
    ((deletedFirst.purgeExceedingAliases 1).1.liveVersions (ascii "a")).length = 2 ∧
    ¬ KeepsNewest deletedFirst 1 (deletedFirst.purgeExceedingAliases 1).1 := by
  have hlen : ((deletedFirst.purgeExceedingAliases 1).1.liveVersions (ascii "a")).length = 2 := by
    decide +kernel
  have hnew : ((deletedFirst.liveVersions (ascii "a")).rtake 1).length = 1 := by decide +kernel
  refine ⟨rfl, hlen, fun h => ?_⟩
  rw [h.newest] at hlen
  omega

/-- 印が最後にだけあれば、新しい方から 1 つが残る -/
def deletedLast : Base :=
  let row (v : Int) (d : Bool) : Alias := ⟨ascii "a", v, v, ascii "x", [], 0, d⟩
  { Base.init with aliases := ⟨[row 1 false, row 2 false, row 3 true], by decide +kernel⟩ }

theorem purgeExceeding_deletedLast :
    KeepsNewest deletedLast 1 (deletedLast.purgeExceedingAliases 1).1 := by
  refine (purgeExceeding_keepsNewest_iff deletedLast 1 (by decide) rfl).mpr fun name _ => ?_
  by_cases hn : name = ascii "a"
  · subst hn
    decide +kernel
  have hrows : deletedLast.aliasRows name = [] := by
    simp [aliasRows, deletedLast, Ne.symm hn]
  simp [hrows, orderBy]

end

end Base

end Redcurrant.Meta2
