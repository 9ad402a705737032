import Redcurrant.Meta2.Lookup

/-!
# alias の削除

`m2db_delete_alias`。行を消す（`realDelete`）か、削除の印の新しい version を書く（`markDeleted`）。
-/

namespace Redcurrant.Meta2

open Infra Sqliterepo List RowTable Except

namespace Base

variable (b : Base)

/-! ## 消す bean の選択 -/

/-- 1 回目の走査で消す bean。alias と、指す alias が 1 つ以下の header。 -/
def dropsFirst : Bean → Bool
  | .aliases _ => true
  | .contentsHeaders h => (b.aliasesOf h.id).length ≤ 1
  | _ => false

/-- 2 回目の走査で消す bean。content の行と、指す行が 1 つ以下の chunk。 -/
def dropsSecond : Bean → Bool
  | .contents _ => true
  | .chunks c => (b.contentsAt c.id).length ≤ 1
  | _ => false

/-- 消える header があること（`header_deleted`） -/
def headerDeleted (beans : List Bean) : Bool :=
  (headersIn beans).any fun h => (b.aliasesOf h.id).length ≤ 1

/-- `m2db_purge_alias_being_deleted` -/
def purgeAliasBeingDeleted (beans : List Bean) : List Bean :=
  (if b.headerDeleted beans then (beans.filter b.dropsSecond).reverse else []) ++
    (beans.filter b.dropsFirst).reverse

/-- base から消す bean。`delChunks` でなければ chunk は残す。 -/
def reallyDropped (delChunks : Bool) : Bean → Bool
  | .chunks _ => delChunks
  | _ => true

/-- client に知らせる bean。印のある alias は知らせない。 -/
def notified (delChunks : Bool) : Bean → Bool
  | .chunks _ => delChunks
  | .aliases a => !a.deleted
  | _ => true

def realDelete (beans : List Bean) (delChunks : Bool) : Base × List Bean :=
  let deleted := b.purgeAliasBeingDeleted beans
  let b' := b.removeAll (deleted.filter (reallyDropped delChunks))
  (b'.setSize (b.size - ((headersIn deleted).map Header.size).sum),
    deleted.filter (notified delChunks))

/-- 削除の印の version を書く。すでに印があり snapshot に属する行では印を外す。 -/
def markDeleted (url : Url) (a : Alias) (now : Int) : Except GError Base := do
  let marker : Alias :=
    { a with
      deleted := !(a.deleted && b.isInASnapshot a)
      version := 1 + a.version
      containerVersion := 1 + b.version
      ctime := now }
  let b' := b.save (.aliases marker)
  let props ← b'.getProperties url {}
  .ok (b'.saveAll (props.map fun p =>
    .properties { p with aliasVersion := a.version, deleted := true }))

/-- 行を本当に消す場合 -/
def deletesReally (maxVersions : Int) (url : Url) (a : Alias) : Bool :=
  decide (VersionsDisabled maxVersions) || decide (VersionsSuspended maxVersions) ||
    ((url.version.isSome || a.deleted) && !b.isInASnapshot a)

/-- `m2db_delete_alias` -/
def deleteAlias (maxVersions : Int) (url : Url) (delChunks : Bool) (now : Int) :
    Except GError (Base × List Bean) :=
  if VersionsDisabled maxVersions ∧ (url.version.map strtoll).getD 0 ≠ 0 then
    .error ⟨codeBadRequest, "Versioning not supported and version specified"⟩
  else do
    let beans ← b.getAlias url { noprops := true }
    match (aliasesIn beans).getLast? with
    | none => .error ⟨codeContentNotfound, "No content to delete"⟩
    | some a =>
      if b.deletesReally maxVersions url a then .ok (b.realDelete beans.reverse delChunks)
      else if url.version.isSome then
        .error ⟨codeNotAllowed, "Cannot delete a content belonging to a snapshot"⟩
      else (b.markDeleted url a now).map fun b' => (b', [])

/-! ## 集めた bean -/

section

variable {b} {rows : List Alias} {a : Alias} {h : Header} {c : Content} {k : Chunk}

variable {id : Bytes}

@[simp] theorem mem_headersOf : h ∈ b.headersOf id ↔ h ∈ b.headers.rows ∧ h.id = id := by
  simp [headersOf]

@[simp] theorem mem_contentsOf : c ∈ b.contentsOf id ↔ c ∈ b.contents.rows ∧ c.contentId = id := by
  simp [contentsOf]

@[simp] theorem mem_chunksOf : k ∈ b.chunksOf id ↔ k ∈ b.chunks.rows ∧ k.id = id := by
  simp [chunksOf]

@[simp] theorem mem_aliasesOf : a ∈ b.aliasesOf id ↔ a ∈ b.aliases.rows ∧ a.contentId = id := by
  simp [aliasesOf]

@[simp] theorem mem_contentsAt : c ∈ b.contentsAt id ↔ c ∈ b.contents.rows ∧ c.chunkId = id := by
  simp [contentsAt]

@[simp] theorem mem_manageAll_aliases : .aliases a ∈ b.manageAll rows ↔ a ∈ rows := by
  simp [manageAll, manageAlias, manageHeader, manageContent]

@[simp] theorem mem_manageAll_headers : .contentsHeaders h ∈ b.manageAll rows ↔
    h ∈ b.headers.rows ∧ ∃ a ∈ rows, h.id = a.contentId := by
  simp only [manageAll, manageAlias, manageHeader, manageContent, mem_flatMap, mem_drain,
    mem_append, mem_map, reduceCtorEq, and_false, exists_false, false_or, or_false,
    mem_singleton, Bean.contentsHeaders.injEq, mem_headersOf]
  constructor
  · rintro ⟨a, ha, h', ⟨hm, hi⟩, rfl⟩
    exact ⟨hm, a, ha, hi⟩
  · rintro ⟨hm, a, ha, hi⟩
    exact ⟨a, ha, h, ⟨hm, hi⟩, rfl⟩

@[simp] theorem mem_manageAll_contents : .contents c ∈ b.manageAll rows ↔
    c ∈ b.contents.rows ∧ ∃ h, .contentsHeaders h ∈ b.manageAll rows ∧ c.contentId = h.id := by
  simp only [mem_manageAll_headers]
  simp only [manageAll, manageAlias, manageHeader, manageContent, mem_flatMap, mem_drain,
    mem_append, mem_map, reduceCtorEq, and_false, exists_false, false_or, or_false,
    mem_singleton, Bean.contents.injEq, mem_headersOf, mem_contentsOf]
  constructor
  · rintro ⟨a, ha, h, ⟨hm, hi⟩, c', ⟨hc, hci⟩, rfl⟩
    exact ⟨hc, h, ⟨hm, a, ha, hi⟩, hci⟩
  · rintro ⟨hc, h, ⟨hm, a, ha, hi⟩, hci⟩
    exact ⟨a, ha, h, ⟨hm, hi⟩, c, ⟨hc, hci⟩, rfl⟩

@[simp] theorem mem_manageAll_chunks : .chunks k ∈ b.manageAll rows ↔
    k ∈ b.chunks.rows ∧ ∃ c, .contents c ∈ b.manageAll rows ∧ k.id = c.chunkId := by
  simp only [mem_manageAll_contents, mem_manageAll_headers]
  simp only [manageAll, manageAlias, manageHeader, manageContent, mem_flatMap, mem_drain,
    mem_append, mem_map, reduceCtorEq, or_false, mem_singleton,
    Bean.chunks.injEq, mem_headersOf, mem_contentsOf, mem_chunksOf, exists_eq_right]
  constructor
  · rintro ⟨a, ha, h, ⟨hm, hi⟩, c, ⟨hc, hci⟩, hk, hki⟩
    exact ⟨hk, c, ⟨hc, h, ⟨hm, a, ha, hi⟩, hci⟩, hki⟩
  · rintro ⟨hk, c, ⟨hc, h, ⟨hm, a, ha, hi⟩, hci⟩, hki⟩
    exact ⟨a, ha, h, ⟨hm, hi⟩, c, ⟨hc, hci⟩, hk, hki⟩

/-! ## 消した後に残る行 -/

theorem mem_purgeAliasBeingDeleted {beans : List Bean} {x : Bean} :
    x ∈ b.purgeAliasBeingDeleted beans ↔
      x ∈ beans ∧ (b.headerDeleted beans ∧ b.dropsSecond x ∨ b.dropsFirst x) := by
  by_cases hd : b.headerDeleted beans <;> simp [purgeAliasBeingDeleted, hd, and_or_left]

theorem headerDeleted_manageAll : b.headerDeleted (b.manageAll rows).reverse ↔
    ∃ h, .contentsHeaders h ∈ b.manageAll rows ∧ (b.aliasesOf h.id).length ≤ 1 := by
  simp [headerDeleted, mem_headersIn]

/-- 選んだ行を消した後の base -/
def realDeleted (b : Base) (rows : List Alias) (delChunks : Bool) : Base :=
  (b.realDelete (b.manageAll rows).reverse delChunks).1

variable {dc : Bool}

theorem aliases_realDeleted (hr : ∀ a ∈ rows, a ∈ b.aliases.rows) :
    a ∈ (b.realDeleted rows dc).aliases.rows ↔ a ∈ b.aliases.rows ∧ a ∉ rows := by
  have hm : ∀ a, a ∈ aliasesIn ((b.purgeAliasBeingDeleted (b.manageAll rows).reverse).filter
      (reallyDropped dc)) ↔ a ∈ rows := by
    simp [mem_aliasesIn, mem_purgeAliasBeingDeleted, reallyDropped, dropsFirst]
  simp only [realDeleted, realDelete, setSize, aliases_removeAll]
  rw [mem_eraseAll_of_subset _ fun x hx => hr x ((hm x).mp hx), hm]
  simp [Alias.pk]

theorem headers_realDeleted : h ∈ (b.realDeleted rows dc).headers.rows ↔ h ∈ b.headers.rows ∧
    ¬ (.contentsHeaders h ∈ b.manageAll rows ∧ (b.aliasesOf h.id).length ≤ 1 ∧
      h.policy.isSome) := by
  have hm : ∀ h, h ∈ headersIn ((b.purgeAliasBeingDeleted (b.manageAll rows).reverse).filter
      (reallyDropped dc)) ↔
        .contentsHeaders h ∈ b.manageAll rows ∧ (b.aliasesOf h.id).length ≤ 1 := by
    simp [mem_headersIn, mem_purgeAliasBeingDeleted, reallyDropped, dropsFirst, dropsSecond]
  simp only [realDeleted, realDelete, setSize, headers_removeAll]
  rw [mem_eraseAll_of_subset _ fun x hx => (mem_manageAll_headers.mp ((hm x).mp hx).1).1, hm]
  simp [Header.pk]

theorem contents_realDeleted : c ∈ (b.realDeleted rows dc).contents.rows ↔ c ∈ b.contents.rows ∧
    ¬ (b.headerDeleted (b.manageAll rows).reverse ∧ .contents c ∈ b.manageAll rows) := by
  have hm : ∀ c, c ∈ contentsIn ((b.purgeAliasBeingDeleted (b.manageAll rows).reverse).filter
      (reallyDropped dc)) ↔
        b.headerDeleted (b.manageAll rows).reverse ∧ .contents c ∈ b.manageAll rows := by
    intro c
    simp only [mem_contentsIn, mem_filter, mem_purgeAliasBeingDeleted, mem_reverse,
      reallyDropped, dropsFirst, dropsSecond, Bool.false_eq_true, or_false, and_true]
    exact and_comm
  simp only [realDeleted, realDelete, setSize, contents_removeAll]
  rw [mem_eraseAll_of_subset _ fun x hx => (mem_manageAll_contents.mp ((hm x).mp hx).2).1, hm]
  simp [Content.pk]

theorem chunks_realDeleted : k ∈ (b.realDeleted rows dc).chunks.rows ↔ k ∈ b.chunks.rows ∧
    ¬ (dc ∧ b.headerDeleted (b.manageAll rows).reverse ∧ .chunks k ∈ b.manageAll rows ∧
      (b.contentsAt k.id).length ≤ 1) := by
  have hm : ∀ k, k ∈ chunksIn ((b.purgeAliasBeingDeleted (b.manageAll rows).reverse).filter
      (reallyDropped dc)) ↔
        dc ∧ b.headerDeleted (b.manageAll rows).reverse ∧ .chunks k ∈ b.manageAll rows ∧
          (b.contentsAt k.id).length ≤ 1 := by
    simp only [mem_chunksIn, mem_filter, mem_purgeAliasBeingDeleted, mem_reverse,
      reallyDropped, dropsFirst, dropsSecond, Bool.false_eq_true, or_false, decide_eq_true_eq]
    tauto
  simp only [realDeleted, realDelete, setSize, chunks_removeAll]
  rw [mem_eraseAll_of_subset _ fun x hx => (mem_manageAll_chunks.mp ((hm x).mp hx).2.2.1).1, hm]
  simp [Chunk.pk]

theorem snapshots_realDeleted : (b.realDeleted rows dc).snapshots = b.snapshots := by
  have hnil : snapshotsIn ((b.purgeAliasBeingDeleted (b.manageAll rows).reverse).filter
      (reallyDropped dc)) = [] := by
    refine filterMap_eq_nil_iff.mpr fun x hx => ?_
    have hm := (mem_purgeAliasBeingDeleted.mp (mem_of_mem_filter hx)).2
    cases x <;> simp_all [dropsFirst, dropsSecond, Bean.snapshot?]
  simp only [realDeleted, realDelete, setSize, snapshots_removeAll, hnil]
  rfl

theorem version_realDeleted : (b.realDeleted rows dc).version = b.version := by
  simp [realDeleted, realDelete, setSize]

/-! ## 削除の結果 -/

/-- 最後に集めた alias。削除の方法を決める。 -/
def lastManaged (b : Base) (rows : List Alias) : Option Alias :=
  (aliasesIn (b.manageAll rows)).getLast?

theorem lastManaged_mem (h : b.lastManaged rows = some a) : a ∈ rows :=
  mem_manageAll_aliases.mp (mem_aliasesIn.mp (mem_of_getLast? h))

theorem markDeleted_eq_saveAll {url : Url} {x : Alias} {now : Int} {b' : Base}
    (h : b.markDeleted url x now = .ok b') :
    ∃ (marker : Alias) (props : List Property), marker.alias = x.alias ∧
      marker.version = x.version + 1 ∧ marker.contentId = x.contentId ∧
      marker.containerVersion = 1 + b.version ∧
      b' = b.saveAll (.aliases marker :: props.map .properties) := by
  simp only [markDeleted, bind, Except.bind] at h
  split at h
  · cases h
  rename_i props _
  cases h
  refine ⟨{ x with
    deleted := !(x.deleted && b.isInASnapshot x)
    version := 1 + x.version
    containerVersion := 1 + b.version
    ctime := now }, props.map fun p => { p with aliasVersion := x.version, deleted := true }, rfl,
    Int.add_comm 1 _, rfl, rfl, ?_⟩
  rw [map_map]
  rfl

theorem in_markerBeans (marker : Alias) (props : List Property) :
    aliasesIn (.aliases marker :: props.map .properties) = [marker] ∧
      headersIn (.aliases marker :: props.map .properties) = [] ∧
      contentsIn (.aliases marker :: props.map .properties) = [] ∧
      chunksIn (.aliases marker :: props.map .properties) = [] ∧
      snapshotsIn (.aliases marker :: props.map .properties) = [] := by
  have hnil : ∀ {α : Type} (f : Bean → Option α), (∀ p, f (.properties p) = none) →
      (props.map Bean.properties).filterMap f = [] := by
    intro α f hf
    rw [filterMap_map, filterMap_eq_nil_iff]
    exact fun p _ => hf p
  refine ⟨congrArg (marker :: ·) (hnil _ fun _ => rfl), ?_, ?_, ?_, ?_⟩ <;>
    exact hnil _ fun _ => rfl

theorem markDeleted_eq_ok {url : Url} {x : Alias} {now : Int} {b' : Base}
    (h : b.markDeleted url x now = .ok b') :
    ∃ marker : Alias, marker.alias = x.alias ∧ marker.version = x.version + 1 ∧
      marker.contentId = x.contentId ∧ b'.aliases = b.aliases.replaceInto marker ∧
      b'.headers = b.headers ∧ b'.snapshots = b.snapshots ∧ b'.size = b.size := by
  obtain ⟨marker, props, hn, hv, hi, -, rfl⟩ := markDeleted_eq_saveAll h
  obtain ⟨ha, hh, -, -, hs⟩ := in_markerBeans marker props
  refine ⟨marker, hn, hv, hi, ?_, ?_, ?_, size_saveAll ..⟩
  · rw [aliases_saveAll, ha]
    rfl
  · rw [headers_saveAll, hh]
    rfl
  · rw [snapshots_saveAll, hs]
    rfl

theorem deleteAlias_eq_ok {m : Int} {url : Url} {now : Int} {b' : Base} {out : List Bean}
    (h : b.deleteAlias m url dc now = .ok (b', out)) :
    ∃ rows a, b.findAliases url { noprops := true } = .ok rows ∧ b.lastManaged rows = some a ∧
      ((b.deletesReally m url a = true ∧ b' = b.realDeleted rows dc) ∨
        (b.deletesReally m url a = false ∧ url.version = none ∧
          b.markDeleted url a now = .ok b')) := by
  simp only [deleteAlias, getAlias_noprops] at h
  split at h
  · cases h
  cases hf : b.findAliases url { noprops := true } with
  | error e => simp [hf, Except.map, bind, Except.bind] at h
  | ok rows =>
    simp only [hf, Except.map, bind, Except.bind] at h
    refine ⟨rows, ?_⟩
    split at h
    · cases h
    rename_i a ha
    refine ⟨a, rfl, ha, ?_⟩
    split at h
    · next hd =>
      cases h
      exact .inl ⟨hd, rfl⟩
    rename_i hd
    rw [Bool.not_eq_true] at hd
    split at h
    · cases h
    rename_i hv
    refine .inr ⟨hd, by simpa using hv, ?_⟩
    split at h
    · cases h
    · next b1 hb =>
      cases h
      exact hb

end

end Base

end Redcurrant.Meta2
