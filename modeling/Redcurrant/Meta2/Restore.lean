import Redcurrant.Meta2.Integrity
import Redcurrant.Meta2.Snapshot

/-!
# snapshot の復元

version を名指さない操作の後でも、soft の復元は生きていた名前だけを戻すはずである。
-/

namespace Redcurrant.Meta2

open Infra Sqliterepo Base List RowTable

variable {env : Env} {b b' b₀ b₁ : Base} {a : Alias} {c m now : Int} {url : Url} {beans : List Bean}

/-! ## snapshot に属するもの -/

/-- snapshot の行の content -/
def RecordedContent (c : Int) (b : Base) (id : Bytes) : Prop :=
  ∃ a ∈ b.aliases.rows, a.containerVersion = c ∧ a.contentId = id

/-- 2 つの base で、snapshot の行とたどれるものが同じ -/
structure SameRecorded (c : Int) (b b' : Base) : Prop where
  aliases : ∀ a : Alias, a.containerVersion = c → (a ∈ b'.aliases.rows ↔ a ∈ b.aliases.rows)
  headers : ∀ h : Header, RecordedContent c b h.id → (h ∈ b'.headers.rows ↔ h ∈ b.headers.rows)
  contents : ∀ x : Content, RecordedContent c b x.contentId →
    (x ∈ b'.contents.rows ↔ x ∈ b.contents.rows)
  chunks : ∀ k : Chunk, (∃ x ∈ b.contents.rows, RecordedContent c b x.contentId ∧
    x.chunkId = k.id) → (k ∈ b'.chunks.rows ↔ k ∈ b.chunks.rows)
  snapshots : b'.snapshots = b.snapshots
  version : b.version ≤ b'.version

theorem SameRecorded.recordedContent (h : SameRecorded c b b') {id : Bytes} :
    RecordedContent c b' id ↔ RecordedContent c b id := by
  constructor
  · rintro ⟨a, ha, hc, hi⟩
    exact ⟨a, (h.aliases a hc).mp ha, hc, hi⟩
  · rintro ⟨a, ha, hc, hi⟩
    exact ⟨a, (h.aliases a hc).mpr ha, hc, hi⟩

theorem SameRecorded.refl (c : Int) (b : Base) : SameRecorded c b b :=
  ⟨fun _ _ => .rfl, fun _ _ => .rfl, fun _ _ => .rfl, fun _ _ => .rfl, rfl, le_rfl⟩

theorem SameRecorded.trans (h : SameRecorded c b₀ b) (h' : SameRecorded c b b') :
    SameRecorded c b₀ b' := by
  refine ⟨fun a ha => ?_, fun x hx => ?_, fun x hx => ?_, fun k hk => ?_, ?_, ?_⟩
  · exact (h'.aliases a ha).trans (h.aliases a ha)
  · exact (h'.headers x (h.recordedContent.mpr hx)).trans (h.headers x hx)
  · exact (h'.contents x (h.recordedContent.mpr hx)).trans (h.contents x hx)
  · obtain ⟨x, hx, hr, hi⟩ := hk
    have hk' : ∃ x ∈ b.contents.rows, RecordedContent c b x.contentId ∧ x.chunkId = k.id :=
      ⟨x, (h.contents x hr).mpr hx, h.recordedContent.mpr hr, hi⟩
    exact (h'.chunks k hk').trans (h.chunks k ⟨x, hx, hr, hi⟩)
  · exact h'.snapshots.trans h.snapshots
  · exact h.version.trans h'.version

theorem SameRecorded.incrementVersion (h : SameRecorded c b b') :
    SameRecorded c b b'.incrementVersion :=
  ⟨h.aliases, h.headers, h.contents, h.chunks, h.snapshots, h.version.trans (by
    simp only [Base.incrementVersion]
    omega)⟩

/-! ## 書き込み -/

/-- その名前の version に snapshot の行が無い -/
def NoRecordedRow (c : Int) (b : Base) (name : Bytes) (version : Int) : Prop :=
  ∀ x ∈ b.aliases.rows, x.alias = name → x.version = version → x.containerVersion ≠ c

/-- 使われている chunk の bean は base の行と同じ -/
def SameChunks (b : Base) (ks : List Chunk) : Prop :=
  ∀ k ∈ ks, (∃ x ∈ b.contents.rows, x.chunkId = k.id) → k ∈ b.chunks.rows

/-- どの alias も指していない content id -/
def FreshId (b : Base) (id : Bytes) : Prop := ∀ a ∈ b.aliases.rows, a.contentId ≠ id

theorem sameRecorded_saveAll {l : List Bean}
    (ha : ∀ w ∈ aliasesIn l, w.containerVersion ≠ c ∧ NoRecordedRow c b w.alias w.version)
    (hh : ∀ h ∈ headersIn l, FreshId b h.id) (hx : ∀ x ∈ contentsIn l, FreshId b x.contentId)
    (hk : SameChunks b (chunksIn l)) (hs : snapshotsIn l = []) :
    SameRecorded c b (b.saveAll l) := by
  have hfresh : ∀ id, FreshId b id → ¬ RecordedContent c b id := by
    rintro id hid ⟨a, ham, -, hi⟩
    exact hid a ham hi
  refine ⟨fun a hac => ?_, fun h hr => ?_, fun x hr => ?_, fun k hu => ?_, ?_, ?_⟩
  · rw [aliases_saveAll]
    constructor
    · intro hm
      exact (mem_of_replaceAll _ hm).resolve_left fun hw => (ha a hw).1 hac
    · intro hm
      refine mem_replaceAll _ (.inr hm) fun w hw hcl => ?_
      obtain ⟨hn, hv⟩ := clash_alias.mp hcl
      exact absurd hac ((ha w hw).2 a hm hn.symm hv.symm)
  · rw [headers_saveAll]
    constructor
    · intro hm
      exact (mem_of_replaceAll _ hm).resolve_left fun hw => hfresh _ (hh h hw) hr
    · intro hm
      refine mem_replaceAll _ (.inr hm) fun w hw hcl => ?_
      exact absurd (Header.id_eq_of_clash hcl ▸ hr) (hfresh _ (hh w hw))
  · rw [contents_saveAll]
    constructor
    · intro hm
      exact (mem_of_replaceAll _ hm).resolve_left fun hw => hfresh _ (hx x hw) hr
    · intro hm
      exact mem_replaceAll _ (.inr hm) fun w _ hcl => clash_content.mp hcl
  · obtain ⟨x, hxm, -, hxi⟩ := hu
    rw [chunks_saveAll]
    constructor
    · intro hm
      rcases mem_of_replaceAll _ hm with hw | hm
      · exact hk k hw ⟨x, hxm, hxi⟩
      · exact hm
    · intro hm
      refine mem_replaceAll _ (.inr hm) fun w hw hcl => ?_
      have hwm := hk w hw ⟨x, hxm, hxi.trans (clash_chunk.mp hcl).symm⟩
      exact b.chunks.eq_of_clash hwm hm hcl
  · rw [snapshots_saveAll, hs]
    rfl
  · exact (version_saveAll ..).ge

theorem sameRecorded_save {w : Alias} (hc : w.containerVersion ≠ c)
    (hfree : NoRecordedRow c b w.alias w.version) : SameRecorded c b (b.save (.aliases w)) := by
  refine sameRecorded_saveAll (l := [.aliases w]) ?_ nofun nofun nofun rfl
  intro x hx
  rw [mem_singleton.mp hx]
  exact ⟨hc, hfree⟩

/-- snapshot の外の行の削除。snapshot の行の content には参照が残る。 -/
theorem sameRecorded_realDeleted {x : Alias} {dc : Bool} (hx : x ∈ b.aliases.rows)
    (hxc : x.containerVersion ≠ c) : SameRecorded c b (b.realDeleted [x] dc) := by
  have hsub : ∀ a ∈ [x], a ∈ b.aliases.rows := fun a ha => mem_singleton.mp ha ▸ hx
  have haliases : ∀ a : Alias, a.containerVersion = c →
      (a ∈ (b.realDeleted [x] dc).aliases.rows ↔ a ∈ b.aliases.rows) := by
    intro a hac
    rw [aliases_realDeleted hsub, and_iff_left]
    intro hax
    exact hxc (mem_singleton.mp hax ▸ hac)
  -- 集めた行が snapshot のものなら、消える header は無い
  have hshared : RecordedContent c b x.contentId →
      ¬ b.headerDeleted (b.manageAll [x]).reverse = true := by
    rintro ⟨a, ha, hac, hai⟩ hdel
    obtain ⟨h, hman, hlen⟩ := headerDeleted_manageAll.mp hdel
    obtain ⟨-, y, hy, hi⟩ := mem_manageAll_headers.mp hman
    rw [mem_singleton.mp hy] at hi
    have hax := mem_rows_of_dropped hsub hman hlen ha (hai.trans hi.symm)
    exact hxc (mem_singleton.mp hax ▸ hac)
  have howner : ∀ y, .contents y ∈ b.manageAll [x] → y.contentId = x.contentId := by
    intro y hy
    obtain ⟨-, h, hh, hyi⟩ := mem_manageAll_contents.mp hy
    obtain ⟨-, z, hz, hi⟩ := mem_manageAll_headers.mp hh
    rw [hyi, hi, mem_singleton.mp hz]
  refine ⟨haliases, fun h hr => ?_, fun y hr => ?_, fun k hu => ?_, snapshots_realDeleted,
    version_realDeleted.ge⟩
  · obtain ⟨a, ha, hac, hi⟩ := hr
    refine ⟨fun hm => (headers_realDeleted.mp hm).1, fun hm => ?_⟩
    exact header_of_realDeleted hsub ((haliases a hac).mpr ha) hm hi.symm
  · rw [contents_realDeleted, and_iff_left]
    rintro ⟨hdel, hman⟩
    exact hshared (howner y hman ▸ hr) hdel
  obtain ⟨y, hy, hr, hi⟩ := hu
  rw [chunks_realDeleted, and_iff_left]
  rintro ⟨-, hdel, hman, hlen⟩
  obtain ⟨-, z, hz, hzi⟩ := mem_manageAll_chunks.mp hman
  have hyz : y = z := eq_of_length_le_one hlen (mem_contentsAt.mpr ⟨hy, hi⟩)
    (mem_contentsAt.mpr ⟨(mem_manageAll_contents.mp hz).1, hzi.symm⟩)
  exact hshared (howner z hz ▸ hyz ▸ hr) hdel

theorem noRecordedRow_after_latest {path : Bytes} {latest : Alias}
    (h : b.latestRow path = some latest) : NoRecordedRow c b path (latest.version + 1) := by
  intro x hx hn hv
  exact absurd hv (no_row_after_latestRow h hx hn)

/-! ## 条件 -/

/-- 操作が version `c` の snapshot に触れない条件 -/
def SparesRecorded (env : Env) (c : Int) (b : Base) (r : Request) : Prop :=
  match r.op with
  | .put url beans uid _ =>
    NamedByUrl url beans ∧ FreshId b uid ∧ SameChunks b (chunksIn beans) ∧ snapshotsIn beans = []
  | .append url beans uid uid' _ =>
    NamedByUrl url beans ∧ FreshId b uid ∧ FreshId b uid' ∧ SameChunks b (chunksIn beans) ∧
      snapshotsIn beans = [] ∧
      ∀ rows, b.findAliases url { noprops := true } = .ok rows → ∀ a ∈ rows,
        minInt64 < a.version ∧ (a.deleted = false → NoRecordedRow c b a.alias (a.version + 1))
  | .copy _ orig => ∀ a, b.copySource env orig = .ok a → a.containerVersion ≠ c
  | .delete url _ _ => ∀ rows, b.findAliases url { noprops := true } = .ok rows →
      ∀ a ∈ rows, NoRecordedRow c b a.alias (a.version + 1)
  | _ => True

/-! ## 1 step -/

section

variable (hv : c ≤ b.version) {s : Snapshot} (hs : s ∈ b.snapshots.rows) (hsc : s.version = c)

include hv hs hsc

section

variable {uid : Bytes} (hm : VersionsEnabled m) (hu : NamedByUrl url beans) (hid : FreshId b uid)
include hm hu hid

theorem putAlias_sameRecorded {out : List Bean} {v : Int} (hk : SameChunks b (chunksIn beans))
    (hsn : snapshotsIn beans = []) (h : b.putAlias env m url beans uid now = .ok (b', out, v)) :
    SameRecorded c b b' := by
  obtain ⟨path, version, size, hp, hver, rfl⟩ := putAlias_eq_ok h
  have hsave := sameRecorded_saveAll (c := c) (b := b)
    (l := b.putBeans env ⟨uid, version, false⟩ now (patchAliasBeansList env beans)) ?_ ?_ ?_ ?_ ?_
  · exact ⟨hsave.aliases, hsave.headers, hsave.contents, hsave.chunks, hsave.snapshots,
      hsave.version⟩
  · intro w hw
    rw [aliasesIn_putBeans rfl, aliasesIn_patch] at hw
    obtain ⟨r, hr, rfl⟩ := mem_map.mp hw
    have hname : path = r.alias := Option.some.inj (hp.symm.trans (hu r hr))
    subst hname
    constructor
    · simp only [putAliasRow]
      omega
    · -- 上書きする行は、どの snapshot にも属さない
      intro x hx hn hxv hxc
      have hout := putVersion_enabled hm hver hx hn hxv
      rw [isInASnapshot_of_mem hs (hxc.trans hsc.symm)] at hout
      cases hout
  · intro x hx
    rw [headersIn_putBeans rfl] at hx
    obtain ⟨y, -, rfl⟩ := mem_map.mp hx
    exact hid
  · intro x hx
    rw [contentsIn_putBeans] at hx
    obtain ⟨y, -, rfl⟩ := mem_map.mp hx
    exact hid
  · rw [chunksIn_putBeans, chunksIn_patch]
    exact hk
  · rw [snapshotsIn_putBeans, snapshotsIn_patch]
    exact hsn

theorem appendToAlias_sameRecorded {uid' : Bytes} {out : List Bean} (hid' : FreshId b uid')
    (hk : SameChunks b (chunksIn beans)) (hsn : snapshotsIn beans = [])
    (hnext : ∀ rows, b.findAliases url { noprops := true } = .ok rows → ∀ a ∈ rows,
      minInt64 < a.version ∧ (a.deleted = false → NoRecordedRow c b a.alias (a.version + 1)))
    (h : b.appendToAlias env m url beans uid uid' now = .ok (b', out)) : SameRecorded c b b' := by
  rcases appendToAlias_cases h with ⟨⟨v, hput⟩, -⟩ | ⟨rows, hf, hfresh, happ⟩
  · exact putAlias_sameRecorded hv hs hsc hm hu hid' hk hsn hput
  generalize hctx : keepOld uid (b.manageAll rows) {} = ctx at hfresh happ
  obtain ⟨ha, hh, hsnap⟩ := in_appendBeans b m beans hctx.symm
  obtain ⟨hcontents, hchunks⟩ := mem_appendBeans b m beans hctx.symm
  obtain ⟨r, hr, hrl, hver⟩ :=
    append_version hm (fun a ha => (hnext rows hf a ha).1) hf (hctx ▸ hfresh)
  rw [hctx] at hver
  have hsave := sameRecorded_saveAll (c := c) (b := b) (l := b.appendBeans m uid ctx beans)
    ?_ ?_ ?_ ?_ hsnap
  · simp only [appendOld] at happ
    split at happ
    · cases happ
    rw [if_neg hm.not_disabled] at happ
    cases happ
    exact ⟨hsave.aliases, hsave.headers, hsave.contents, hsave.chunks, hsave.snapshots,
      hsave.version⟩
  · intro w hw
    rw [ha] at hw
    obtain ⟨q, hq, rfl⟩ := mem_map.mp hw
    have hname : q.alias = r.alias :=
      Option.some.inj ((hu q hq).symm.trans (mem_findAliases rfl hf hr).2)
    simp only [appendAliasRow, hver, hname]
    exact ⟨by omega, (hnext rows hf r hr).2 hrl⟩
  · intro x hx
    rw [hh] at hx
    obtain ⟨y, -, rfl⟩ := mem_map.mp hx
    exact hid
  · intro x hx
    rw [hcontents x hx]
    exact hid
  · intro k hkm hused
    rcases hchunks k hkm with hold | hnew
    · exact (mem_manageAll_chunks.mp hold).1
    · exact hk k hnew hused

end

theorem deleteAlias_sameRecorded {dc : Bool} {out : List Bean} (hm : VersionsEnabled m)
    (hurl : url.version = none)
    (hnext : ∀ rows, b.findAliases url { noprops := true } = .ok rows →
      ∀ a ∈ rows, NoRecordedRow c b a.alias (a.version + 1))
    (h : b.deleteAlias m url dc now = .ok (b', out)) : SameRecorded c b b' := by
  obtain ⟨rows, x, hf, hlast, hcase⟩ := deleteAlias_eq_ok h
  have hx := lastManaged_mem hlast
  have hxm := (mem_findAliases rfl hf hx).1
  rcases hcase with ⟨hd, rfl⟩ | ⟨-, -, hmark⟩
  · obtain ⟨rfl, -, hout⟩ := deletesReally_single hm hurl hf hx hd
    refine sameRecorded_realDeleted hxm fun hxc => ?_
    rw [isInASnapshot_of_mem hs (hxc.trans hsc.symm)] at hout
    cases hout
  obtain ⟨marker, props, hn, hver, -, hcv, rfl⟩ := markDeleted_eq_saveAll hmark
  obtain ⟨ha, hh, hcontents, hchunks, hsnap⟩ := in_markerBeans marker props
  refine sameRecorded_saveAll ?_ ?_ ?_ ?_ hsnap
  · rw [ha]
    intro w hw
    rw [mem_singleton.mp hw, hn, hver, hcv]
    exact ⟨by omega, hnext rows hf x hx⟩
  · simp [hh]
  · simp [hcontents]
  · simp [SameChunks, hchunks]

end

theorem copyAlias_sameRecorded {orig : Url} (hm : VersionsEnabled m)
    (hsrc : ∀ a, b.copySource env orig = .ok a → a.containerVersion ≠ c)
    (h : b.copyAlias env m url orig = .ok b') : SameRecorded c b b' := by
  obtain ⟨path, src, version, -, hsource, hver, rfl⟩ := copyAlias_eq_ok h
  have hfree : NoRecordedRow c b path version := by
    rcases copyVersion_eq_ok hver with ⟨hnone, -⟩ | ⟨dst, hdst, ⟨-, rfl⟩ | ⟨hsus, -⟩⟩
    · intro x hx hn _
      exact absurd hn (no_row_of_latestRow_none hnone hx)
    · exact noRecordedRow_after_latest hdst
    · exact absurd hsus hm.not_suspended
  exact sameRecorded_save (hsrc src hsource) hfree

theorem setProperties_sameRecorded (hv : c ≤ b.version) (hm : VersionsEnabled m)
    (h : b.setProperties m url beans = .ok b') : SameRecorded c b b' := by
  obtain ⟨latest, -, hlatest, -, rfl⟩ := setProperties_eq_save hm h
  have hsave : SameRecorded c b (b.save (.aliases { latest with
      containerVersion := b.version + 1
      version := latest.version + 1 })) := by
    refine sameRecorded_save ?_ (noRecordedRow_after_latest hlatest)
    simp only
    omega
  obtain ⟨t, ht⟩ := foldl_setProperty latest.alias (latest.version + 1) beans (b.save (.aliases
    { latest with containerVersion := b.version + 1, version := latest.version + 1 }))
  rw [ht]
  exact ⟨hsave.aliases, hsave.headers, hsave.contents, hsave.chunks, hsave.snapshots, hsave.version⟩

theorem step_sameRecorded {r : Request} {s : Snapshot} (hv : c ≤ b.version)
    (hs : s ∈ b.snapshots.rows) (hsc : s.version = c) (hadd : Additive r)
    (hspare : SparesRecorded env c b r) (h : step env b r = some b') : SameRecorded c b b' := by
  obtain ⟨m, op⟩ := r
  obtain ⟨hm, hop⟩ := hadd
  cases op with
  | put url beans uid now =>
    obtain ⟨⟨b₁, out, v⟩, hok, rfl⟩ := okBase_eq_some h
    obtain ⟨hu, hid, hk, hsn⟩ := hspare
    exact (putAlias_sameRecorded hv hs hsc hm hu hid hk hsn hok).incrementVersion
  | append url beans uid uid' now =>
    obtain ⟨⟨b₁, out⟩, hok, rfl⟩ := okBase_eq_some h
    obtain ⟨hu, hid, hid', hk, hsn, hnext⟩ := hspare
    exact (appendToAlias_sameRecorded hv hs hsc hm hu hid hid' hk hsn hnext hok).incrementVersion
  | copy url orig =>
    obtain ⟨b₁, hok, rfl⟩ := okBase_eq_some h
    exact (copyAlias_sameRecorded hm hspare hok).incrementVersion
  | delete url dc now =>
    obtain ⟨⟨b₁, out⟩, hok, rfl⟩ := okBase_eq_some h
    exact (deleteAlias_sameRecorded hv hs hsc hm hop hspare hok).incrementVersion
  | setProperties url beans =>
    obtain ⟨b₁, hok, rfl⟩ := okBase_eq_some h
    exact (setProperties_sameRecorded hv hm hok).incrementVersion
  | force url beans uid now | updateHeader url beans skip uid | purge args => exact hop.elim

/-! ## 見える content -/

def getContent (b : Base) (path : Bytes) : Except GError (List Bean) :=
  b.getAlias (pathUrl path) { noprops := true, nodeleted := true }

/-- 2 つの GET の結果は version と時刻のほかは同じ -/
def SameContent (out out' : List Bean) : Prop :=
  (∀ x : Bean, x.alias? = none → (x ∈ out' ↔ x ∈ out)) ∧
    (aliasesIn out').map (fun a => (a.alias, a.contentId, a.mdsys, a.deleted)) =
      (aliasesIn out).map fun a => (a.alias, a.contentId, a.mdsys, a.deleted)

theorem getContent_live {path : Bytes} {r : Alias} (hr : b.latestRow path = some r)
    (hl : r.deleted = false) : getContent b path = .ok (b.manageAlias r) := by
  simp [getContent, getAlias, findAliases, pathUrl, Url.getPath, bind, Except.bind, Except.map,
    buildClause, selectRows, hr, hl, drain]

theorem getContent_dead {path : Bytes} (h : ∀ r, b.latestRow path = some r → r.deleted = true) :
    ∃ message, getContent b path = .error ⟨codeContentNotfound, message⟩ :=
  getAlias_path_dead h

theorem manageAlias_eq (b : Base) (a : Alias) : b.manageAlias a = b.manageAll [a] := by
  simp [manageAll, drain]

theorem manageAlias_of_tables (hh : b'.headers = b.headers) (hc : b'.contents = b.contents)
    (hk : b'.chunks = b.chunks) (a : Alias) : b'.manageAlias a = b.manageAlias a := by
  have hcontent : b'.manageContent = b.manageContent := by
    funext x
    simp only [manageContent, chunksOf, hk]
  have hheader : b'.manageHeader = b.manageHeader := by
    funext h
    simp only [manageHeader, contentsOf, hc, hcontent]
  simp only [manageAlias, headersOf, hh, hheader]

theorem SameRecorded.mem_manageAlias (hs : SameRecorded c b b') {r z : Alias}
    (hz : RecordedContent c b z.contentId) (hi : r.contentId = z.contentId) {x : Bean}
    (hn : x.alias? = none) : x ∈ b'.manageAlias r ↔ x ∈ b.manageAlias z := by
  have hheader : ∀ h, .contentsHeaders h ∈ b'.manageAll [r] ↔
      .contentsHeaders h ∈ b.manageAll [z] := by
    intro h
    simp only [mem_manageAll_headers, mem_singleton, exists_eq_left, hi]
    exact and_congr_left fun he => hs.headers h (he ▸ hz)
  have howner : ∀ h, .contentsHeaders h ∈ b.manageAll [z] → RecordedContent c b h.id := by
    intro h hm
    obtain ⟨-, a, ha, he⟩ := mem_manageAll_headers.mp hm
    rw [he, mem_singleton.mp ha]
    exact hz
  have hcontent : ∀ y, .contents y ∈ b'.manageAll [r] ↔ .contents y ∈ b.manageAll [z] := by
    intro y
    simp only [mem_manageAll_contents, hheader]
    refine and_congr_left ?_
    rintro ⟨h, hm, he⟩
    exact hs.contents y (he ▸ howner h hm)
  have hchunk : ∀ k, .chunks k ∈ b'.manageAll [r] ↔ .chunks k ∈ b.manageAll [z] := by
    intro k
    simp only [mem_manageAll_chunks, hcontent]
    refine and_congr_left ?_
    rintro ⟨y, hy, he⟩
    obtain ⟨hym, h, hm, hyi⟩ := mem_manageAll_contents.mp hy
    exact hs.chunks k ⟨y, hym, hyi ▸ howner h hm, he.symm⟩
  rw [manageAlias_eq, manageAlias_eq]
  cases x with
  | aliases a => cases hn
  | contentsHeaders h => exact hheader h
  | contents y => exact hcontent y
  | chunks k => exact hchunk k
  | properties p | snapshots s => simp [manageAll, manageAlias, manageHeader, manageContent]

/-! ## run -/

/-- snapshot を取ってから条件を満たす操作を続けても、snapshot に属するものは変わらない -/
theorem run_sameRecorded {s : Snapshot} (hv : c ≤ b₀.version) (hs : s ∈ b₀.snapshots.rows)
    (hsc : s.version = c)
    (hrun : Reach (step env) (fun b r => Additive r ∧ SparesRecorded env c b r) b₀ b) :
    SameRecorded c b₀ b := by
  refine hrun.invariant (I := SameRecorded c b₀) (SameRecorded.refl c b₀) ?_
  intro x y r hx hok hstep
  have hs' : s ∈ x.snapshots.rows := by
    rw [hx.snapshots]
    exact hs
  exact hx.trans (step_sameRecorded (hv.trans hx.version) hs' hsc hok.1 hok.2 hstep)

/-- **soft の復元。** snapshot を取った base `S` から条件を満たす操作をどう続けた後でも、復元は成功し、`S` で見えた path
だけが同じ content とともに見える。 -/
theorem soft_restore_restores (env : Env) (choice choice' : Bytes → Nat) (S b₀ b : Base)
    (m m' : Int) (name : Bytes) (hpos : 0 ≤ S.version)
    (hfresh : ∀ a ∈ S.aliases.rows, a.containerVersion ≠ 1 + S.version)
    (htake : S.backendTakeSnapshot choice m name = .ok b₀)
    (hrun : Reach (step env) (fun b r => Additive r ∧ SparesRecorded env (1 + S.version) b r) b₀ b)
    (hm : VersionsEnabled m') :
    ∃ b', b.backendRestoreSnapshot choice' m' name false = .ok b' ∧
      (∀ path out, getContent S path = .ok out →
        ∃ out', getContent b' path = .ok out' ∧ SameContent out out') ∧
      (∀ path e, getContent S path = .error e →
        ∃ message, getContent b' path = .error ⟨codeContentNotfound, message⟩) ∧
      ∀ a ∈ b₀.aliases.rows, a.containerVersion = 1 + S.version → a ∈ b'.aliases.rows := by
  obtain ⟨rfl, hname⟩ := backendTakeSnapshot_eq_ok htake
  have hdup := duplicated_dupAllAliases S choice false
  have hv₀ : 1 + S.version ≤ (S.takeSnapshot choice name).incrementVersion.version := by
    have : (S.takeSnapshot choice name).version = S.version := hdup.version
    simp only [incrementVersion, this]
    omega
  have hsame := run_sameRecorded hv₀ (getSnapshotByName_mem hname) rfl hrun
  have hrec : ∀ a : Alias, a.containerVersion = 1 + S.version → (a ∈ b.aliases.rows ↔
      ∃ z, S.latestRow z.alias = some z ∧ a = dupAlias S.version false false z.version z) :=
    fun a hac => (hsame.aliases a hac).trans (mem_takeSnapshot choice name hfresh hac)
  have hrestored : b.Restored (1 + S.version)
      (b.restoreSnapshot choice' ⟨1 + S.version, name⟩ false) := by
    refine restored_restoreSnapshot (by omega) (hv₀.trans hsame.version) ?_
    intro a ha r hr hac hrc hn
    obtain ⟨z, hz, rfl⟩ := (hrec a hac).mp ha
    obtain ⟨z', hz', rfl⟩ := (hrec r hrc).mp hr
    have hzz : S.latestRow z.alias = some z' := (show z'.alias = z.alias from hn) ▸ hz'
    rw [Option.some.inj (hz.symm.trans hzz)]
  have hget : b.getSnapshotByName name = .ok ⟨1 + S.version, name⟩ := by
    simp only [getSnapshotByName, getSnapshots, hsame.snapshots]
    exact hname
  refine ⟨(b.restoreSnapshot choice' ⟨1 + S.version, name⟩ false).incrementVersion, ?_, ?_, ?_, ?_⟩
  · simp [backendRestoreSnapshot, hm, hget]
  · intro path out hout
    rcases S.latestRow_cases path with ⟨z, hz, hzl⟩ | hdead
    · rw [getContent_live hz hzl] at hout
      cases hout
      obtain ⟨-, rfl⟩ := latestRow_mem hz
      have hin : dupAlias S.version false false z.version z ∈ b.aliases.rows :=
        (hrec _ rfl).mpr ⟨z, hz, rfl⟩
      obtain ⟨v, cv, hl⟩ := hrestored.recorded _ hin rfl
      have hid : RecordedContent (1 + S.version) (S.takeSnapshot choice name).incrementVersion
          z.contentId := ⟨_, (hsame.aliases _ rfl).mp hin, rfl, rfl⟩
      have hS : (S.takeSnapshot choice name).incrementVersion.manageAlias z = S.manageAlias z :=
        manageAlias_of_tables hdup.headers hdup.contents hdup.chunks z
      have hb' : ∀ r, (b.restoreSnapshot choice' ⟨1 + S.version, name⟩
          false).incrementVersion.manageAlias r = b.manageAlias r :=
        manageAlias_of_tables hrestored.headers hrestored.contents hrestored.chunks
      refine ⟨_, getContent_live hl hzl, fun x hx => ?_, ?_⟩
      · rw [hb', ← hS]
        refine hsame.mem_manageAlias hid ?_ hx
        rfl
      · rw [aliasesIn_manageAlias, aliasesIn_manageAlias]
        rfl
    · obtain ⟨message, he⟩ := getContent_dead hdead
      rw [he] at hout
      cases hout
  · intro path e he
    refine getContent_dead fun r hr => ?_
    rcases S.latestRow_cases path with ⟨z, hz, hzl⟩ | hdead
    · rw [getContent_live hz hzl] at he
      cases he
    by_cases hany : ∃ a ∈ b.aliases.rows, a.containerVersion = 1 + S.version ∧ a.alias = path
    · -- `S` で削除済みの path の写しには、印が残っている
      obtain ⟨a, ha, hac, rfl⟩ := hany
      obtain ⟨v, cv, hl⟩ := hrestored.recorded a ha hac
      obtain ⟨z, hz, rfl⟩ := (hrec a hac).mp ha
      have hr' := Option.some.inj (hr.symm.trans hl)
      rw [hr']
      exact hdead z hz
    · exact hrestored.others path (fun a ha hac hn => hany ⟨a, ha, hac, hn⟩) r hr
  · intro a ha hac
    exact hrestored.kept a ((hsame.aliases a hac).mpr ha) hac

/-! ### 復元の例 -/

def putOnce : Base := (exec (step plainEnv) Base.init [putP 10 "k" 1 "u"]).getD Base.init

/-- snapshot の後の操作の列: `p` の新しい version、`p` の削除 -/
def laterRequests : List Request := [putP 10 "l" 2 "v", ⟨10, .delete (pathUrl (ascii "p")) false 1⟩]

/-- 新しい version と削除の後でも、`p` は content とともに戻る -/
theorem soft_restore_restores_putOnce : ∃ b₀ b b',
    putOnce.backendTakeSnapshot (fun _ => 0) 10 (ascii "s") = .ok b₀ ∧
      exec (step plainEnv) b₀ laterRequests = some b ∧
      b.backendRestoreSnapshot (fun _ => 0) 10 (ascii "s") false = .ok b' ∧
      ∃ out out', getContent putOnce (ascii "p") = .ok out ∧
        getContent b' (ascii "p") = .ok out' ∧ SameContent out out' := by
  obtain ⟨b₀, b₁, b, out, htake, hput, hdel, hout, hid, hk⟩ : ∃ b₀ b₁ b out,
      putOnce.backendTakeSnapshot (fun _ => 0) 10 (ascii "s") = .ok b₀ ∧
      step plainEnv b₀ (putP 10 "l" 2 "v") = some b₁ ∧
      step plainEnv b₁ ⟨10, .delete (pathUrl (ascii "p")) false 1⟩ = some b ∧
      getContent putOnce (ascii "p") = .ok out ∧
      (∀ a ∈ b₀.aliases.rows, a.contentId ≠ ascii "v") ∧
      ∀ k ∈ chunksIn (chunkBeans "l" 2), (∃ x ∈ b₀.contents.rows, x.chunkId = k.id) →
        k ∈ b₀.chunks.rows :=
    ⟨_, _, _, _, rfl, rfl, rfl, rfl, by decide +kernel, by decide +kernel⟩
  have hrun : Reach (step plainEnv)
      (fun b r => Additive r ∧ SparesRecorded plainEnv (1 + putOnce.version) b r) b₀ b := by
    have hspare : Additive (putP 10 "l" 2 "v") ∧
        SparesRecorded plainEnv (1 + putOnce.version) b₀ (putP 10 "l" 2 "v") :=
      ⟨⟨.inl (by decide), trivial⟩, namedByUrl_chunkBeans "l" 2, hid, hk, rfl⟩
    have hspare' : Additive ⟨10, .delete (pathUrl (ascii "p")) false 1⟩ ∧
        SparesRecorded plainEnv (1 + putOnce.version) b₁
          ⟨10, .delete (pathUrl (ascii "p")) false 1⟩ :=
      ⟨⟨.inl (by decide), rfl⟩, fun rows hf a ha =>
        noRecordedRow_after_latest (latestRow_of_found rfl rfl hf ha)⟩
    exact .tail (.tail .refl hspare hput) hspare' hdel
  obtain ⟨b', hrestore, hseen, -⟩ := soft_restore_restores plainEnv (fun _ => 0) (fun _ => 0) putOnce
    b₀ b 10 10 (ascii "s") (by decide +kernel) (by decide +kernel) htake hrun (.inl (by decide))
  obtain ⟨out', hout', hsame⟩ := hseen _ _ hout
  exact ⟨b₀, b, b', htake, by simp [exec, laterRequests, hput, hdel], hrestore, out, out', hout,
    hout', hsame⟩

/-- snapshot の行を copy した名前は復元の後に見える -/
theorem copied_alias_restored : ∃ b₀ b b',
    putOnce.backendTakeSnapshot (fun _ => 0) 10 (ascii "s") = .ok b₀ ∧
      step plainEnv b₀ ⟨10, .copy (pathUrl (ascii "q")) (pathUrl (ascii "p"))⟩ = some b ∧
      b.backendRestoreSnapshot (fun _ => 0) 10 (ascii "s") false = .ok b' ∧
      putOnce.latestRow (ascii "q") = none ∧ ∃ out, getContent b' (ascii "q") = .ok out := by
  refine ⟨_, _, _, rfl, rfl, rfl, by decide +kernel, _, rfl⟩

/-! ## put した content -/

/-- 1 つの content の bean。chunk の id は互いに違い、どの chunk も content に指される。 -/
structure WholeContent (beans : List Bean) (a : Alias) (h : Header) : Prop where
  aliases : aliasesIn beans = [a]
  headers : headersIn beans = [h]
  chunks : ∀ k ∈ chunksIn beans, ∀ k' ∈ chunksIn beans, k.id = k'.id → k = k'
  linked : ∀ id, (∃ k ∈ chunksIn beans, k.id = id) ↔ ∃ c ∈ contentsIn beans, c.chunkId = id

variable {h : Header} {uid : Bytes} {version size size' : Int}

theorem latestRow_put (ha : aliasesIn beans = [a])
    (hv : b.putVersion m a.alias size = .ok (version, size')) :
    (b.realPutAlias env ⟨uid, version, false⟩ now (patchAliasBeansList env beans)).latestRow a.alias =
      some (b.putAliasRow env ⟨uid, version, false⟩ now a) := by
  rw [realPutAlias]
  refine latestRow_eq_some ?_ rfl fun x hx hn => ?_ <;>
    rw [aliases_saveAll, aliasesIn_putBeans rfl, aliasesIn_patch, ha] at *
  · exact (mem_replaceInto _).mpr (.inr rfl)
  rcases (mem_replaceInto _).mp hx with ⟨hx, -⟩ | rfl
  · -- put は最新の行より前の version を書かない
    show x.version ≤ version + 1
    rcases putVersion_eq_ok hv with ⟨hnone, -⟩ | ⟨latest, hl, hcase⟩
    · exact absurd hn (no_row_of_latestRow_none hnone hx)
    · have := latestRow_le hl hx hn
      omega
  · exact le_rfl

/-- **put した content を GET は過不足なく返す。** -/
theorem put_then_get {out : List Bean} {v : Int} (hw : WholeContent beans a h)
    (hn : url.path = some a.alias) (hid : ∀ x ∈ b.headers.rows, x.id ≠ uid)
    (hcid : ∀ x ∈ b.contents.rows, x.contentId ≠ uid)
    (hput : b.putAlias env m url beans uid now = .ok (b', out, v)) :
    ∃ r got, getContent b' a.alias = .ok got ∧ r.alias = a.alias ∧ r.contentId = uid ∧
      (∃ version, r = b.putAliasRow env ⟨uid, version, false⟩ now a) ∧ ∀ x, x ∈ got ↔ x = .aliases r ∨ x = .contentsHeaders { patchHeader env h with id := uid } ∨
        (∃ c ∈ contentsIn beans, x = .contents { c with contentId := uid }) ∨
        ∃ k ∈ chunksIn beans, x = .chunks k := by
  obtain ⟨path, version, size, hp, hv, rfl⟩ := putAlias_eq_ok hput
  obtain rfl : path = a.alias := Option.some.inj (hp.symm.trans hn)
  set b' := (b.realPutAlias env ⟨uid, version, false⟩ now (patchAliasBeansList env beans)).setSize
    (b.size + size)
  let r := b.putAliasRow env ⟨uid, version, false⟩ now a
  refine ⟨r, _, getContent_live (latestRow_put hw.aliases hv) rfl, rfl, rfl, ⟨_, rfl⟩,
    fun x => ?_⟩
  show x ∈ b'.manageAlias r ↔ _
  rw [manageAlias_eq]
  have hheader : ∀ x, .contentsHeaders x ∈ b'.manageAll [r] ↔
      x = { patchHeader env h with id := uid } := by
    have hrows : b'.headers = (b.saveAll _).headers := rfl
    rw [headers_saveAll, headersIn_putBeans rfl, headersIn_patch, hw.headers] at hrows
    intro x
    rw [mem_manageAll_headers, hrows]
    constructor
    · rintro ⟨hx, y, hy, he⟩
      cases mem_singleton.mp hy
      exact ((mem_replaceInto _).mp hx).resolve_left fun h => hid x h.1 he
    · rintro rfl
      exact ⟨(mem_replaceInto _).mpr (.inr rfl), r, mem_singleton_self r, rfl⟩
  have hcontent : ∀ c, .contents c ∈ b'.manageAll [r] ↔
      ∃ y ∈ contentsIn beans, c = { y with contentId := uid } := by
    have hpatch : contentsIn (patchAliasBeansList env beans) = contentsIn beans :=
      (filterMap_map_rewrite (g := id) (fun x => by cases x <;> rfl) beans).trans (map_id _)
    have hrows : b'.contents = (b.saveAll _).contents := rfl
    rw [contents_saveAll, contentsIn_putBeans, hpatch] at hrows
    intro c
    simp only [mem_manageAll_contents, hheader, exists_eq_left, hrows]
    constructor
    · rintro ⟨hc, he⟩
      have := (mem_of_replaceAll _ hc).resolve_right fun hold => hcid c hold he
      simpa [eq_comm] using this
    · rintro ⟨y, hy, rfl⟩
      exact ⟨mem_replaceAll _ (.inl (mem_map_of_mem hy)) fun _ _ => clash_content.mp, rfl⟩
  have hchunk : ∀ k, .chunks k ∈ b'.manageAll [r] ↔ k ∈ chunksIn beans := by
    have hrows : b'.chunks = (b.saveAll _).chunks := rfl
    rw [chunks_saveAll, chunksIn_putBeans, chunksIn_patch] at hrows
    have hnew : ∀ k ∈ chunksIn beans, k ∈ b'.chunks.rows := fun k hk => by
      rw [hrows]
      exact mem_replaceAll _ (.inl hk) fun x hx hc => hw.chunks x hx k hk (clash_chunk.mp hc)
    intro k
    simp only [mem_manageAll_chunks, hcontent]
    constructor
    · rintro ⟨hk, _, ⟨c, hc, rfl⟩, he⟩
      obtain ⟨k', hk', hid⟩ := (hw.linked _).mpr ⟨c, hc, rfl⟩
      exact b'.chunks.eq_of_clash (hnew k' hk') hk (clash_chunk.mpr (hid.trans he.symm)) ▸ hk'
    · intro hk
      obtain ⟨c, hc, he⟩ := (hw.linked _).mp ⟨k, hk, rfl⟩
      exact ⟨hnew k hk, _, ⟨c, hc, rfl⟩, he.symm⟩
  cases x with
  | aliases y => simp
  | contentsHeaders y => simp [hheader]
  | contents y => simp [hcontent]
  | chunks y => simp [hchunk]
  | properties p | snapshots s => simp [manageAll, manageAlias, manageHeader, manageContent]

/-- 前の version のある path に put した chunk を GET が返す -/
theorem put_then_get_again : ∃ b b' out v got,
    step plainEnv Base.init (putP 10 "k" 1 "u") = some b ∧
    b.putAlias plainEnv 10 (pathUrl (ascii "p")) (chunkBeans "l" 3) (ascii "v") 2 =
      .ok (b', out, v) ∧ getContent b' (ascii "p") = .ok got ∧ .chunks ⟨ascii "l", [], 3, 0⟩ ∈ got ∧
    .chunks ⟨ascii "k", [], 1, 0⟩ ∉ got := by
  obtain ⟨b, b', out, v, hb, hput, hid, hcid⟩ : ∃ b b' out v,
      step plainEnv Base.init (putP 10 "k" 1 "u") = some b ∧
      b.putAlias plainEnv 10 (pathUrl (ascii "p")) (chunkBeans "l" 3) (ascii "v") 2 =
        .ok (b', out, v) ∧ (∀ x ∈ b.headers.rows, x.id ≠ ascii "v") ∧
      ∀ x ∈ b.contents.rows, x.contentId ≠ ascii "v" :=
    ⟨_, _, _, _, rfl, rfl, by decide +kernel, by decide +kernel⟩
  have hw : WholeContent (chunkBeans "l" 3) _ _ := ⟨rfl, rfl, by decide,
    by simp [chunkBeans, chunksIn, contentsIn, Bean.chunk?, Bean.content?]⟩
  obtain ⟨r, got, hget, -, -, -, hmem⟩ := put_then_get hw rfl hid hcid hput
  refine ⟨b, b', out, v, got, hb, hput, hget,
    (hmem _).mpr (.inr (.inr (.inr ⟨_, mem_singleton_self _, rfl⟩))), fun h => ?_⟩
  rcases (hmem _).mp h with h | h | ⟨_, -, h⟩ | ⟨k, hk, h⟩
  · cases h
  · cases h
  · cases h
  · rw [show chunksIn (chunkBeans "l" 3) = [⟨ascii "l", [], 3, 0⟩] from rfl, mem_singleton] at hk
    rw [hk] at h
    exact absurd h (by decide +kernel)

end Redcurrant.Meta2
