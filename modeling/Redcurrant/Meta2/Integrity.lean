import Redcurrant.Meta2.Delete
import Redcurrant.Meta2.Purge

/-!
# 参照の保存

SQLite は外部鍵を検査しないので、参照の先があること（`Linked`）は操作が自分で保つ。
-/

namespace Redcurrant.Meta2

open Infra Sqliterepo List RowTable

namespace Base

variable {b b' : Base} {rows : List Alias} {a r : Alias} {dc : Bool}

/-- どの alias にも header、どの content の行にも chunk がある -/
structure Linked (b : Base) : Prop where
  image : ∀ a ∈ b.aliases.rows, ∃ h ∈ b.headers.rows, h.id = a.contentId
  chunk : ∀ c ∈ b.contents.rows, ∃ k ∈ b.chunks.rows, k.id = c.chunkId

/-- 消えた header・content・chunk の行は指されていない -/
structure Unreferenced (b b' : Base) : Prop where
  header_alias : ∀ h ∈ b.headers.rows, h ∉ b'.headers.rows →
    ∀ a ∈ b'.aliases.rows, a.contentId ≠ h.id
  header_content : ∀ h ∈ b.headers.rows, h ∉ b'.headers.rows →
    ∀ c ∈ b'.contents.rows, c.contentId ≠ h.id
  content_alias : ∀ c ∈ b.contents.rows, c ∉ b'.contents.rows →
    ∀ a ∈ b'.aliases.rows, a.contentId ≠ c.contentId
  chunk_content : ∀ k ∈ b.chunks.rows, k ∉ b'.chunks.rows → ∀ c ∈ b'.contents.rows, c.chunkId ≠ k.id

def Sound (b b' : Base) : Prop := b'.Linked ∧ b.Unreferenced b'

/-! ## 参照の数 -/

theorem eq_of_length_le_one {α : Type} {l : List α} {x y : α} (h : l.length ≤ 1) (hx : x ∈ l)
    (hy : y ∈ l) : x = y := by
  match l, h with
  | [_], _ => rw [mem_singleton.mp hx, mem_singleton.mp hy]

/-- その行だけが content を指している -/
def LastReference (b : Base) (a : Alias) : Prop :=
  ∀ r ∈ b.aliases.rows, r.contentId = a.contentId → r = a

theorem exists_other_reference (h : ¬ b.LastReference a) :
    ∃ r ∈ b.aliases.rows, r.contentId = a.contentId ∧ r ≠ a := by
  simpa [LastReference] using h

theorem lastReference_iff (ha : a ∈ b.aliases.rows) :
    b.LastReference a ↔ (b.aliasesOf a.contentId).length ≤ 1 := by
  constructor
  · intro h
    have hsub : b.aliasesOf a.contentId ⊆ [a] := by
      intro r hr
      obtain ⟨hm, hc⟩ := mem_aliasesOf.mp hr
      exact mem_singleton.mpr (h r hm hc)
    exact (b.nodup_aliases.filter _).length_le_of_subset hsub
  · intro h r hr hc
    exact eq_of_length_le_one h (mem_aliasesOf.mpr ⟨hr, hc⟩) (mem_aliasesOf.mpr ⟨ha, rfl⟩)

theorem headerDeleted_iff (hb : b.Linked) (hr : ∀ a ∈ rows, a ∈ b.aliases.rows) :
    b.headerDeleted (b.manageAll rows).reverse ↔ ∃ a ∈ rows, b.LastReference a := by
  rw [headerDeleted_manageAll]
  constructor
  · rintro ⟨h, hm, hlen⟩
    obtain ⟨-, a, ha, hi⟩ := mem_manageAll_headers.mp hm
    exact ⟨a, ha, (lastReference_iff (hr a ha)).mpr (hi ▸ hlen)⟩
  · rintro ⟨a, ha, hlast⟩
    obtain ⟨h, hm, hi⟩ := hb.image a (hr a ha)
    refine ⟨h, mem_manageAll_headers.mpr ⟨hm, a, ha, hi⟩, ?_⟩
    rw [hi]
    exact (lastReference_iff (hr a ha)).mp hlast

/-! ## 選んだ行の削除 -/

/-- 選んだ行の中に最後の参照があれば、残る行も使う content は content の行を持たない -/
def SharesNothing (b : Base) (rows : List Alias) : Prop :=
  (∃ a ∈ rows, b.LastReference a) → ∀ a ∈ rows, ∀ r ∈ b.aliases.rows, r ∉ rows →
    r.contentId = a.contentId → ∀ c ∈ b.contents.rows, c.contentId ≠ a.contentId

theorem sharesNothing_singleton (ha : a ∈ b.aliases.rows) : b.SharesNothing [a] := by
  rintro ⟨x, hx, hlast⟩ y hy r hr hne hc
  rw [mem_singleton] at hx hy
  subst hx hy
  exact absurd (mem_singleton.mpr (hlast r hr hc)) hne

theorem mem_rows_of_dropped {h : Header} (hr : ∀ a ∈ rows, a ∈ b.aliases.rows)
    (hm : .contentsHeaders h ∈ b.manageAll rows) (hlen : (b.aliasesOf h.id).length ≤ 1)
    (hra : r ∈ b.aliases.rows) (hc : r.contentId = h.id) : r ∈ rows := by
  obtain ⟨-, a, ha, hi⟩ := mem_manageAll_headers.mp hm
  have : r = a := eq_of_length_le_one hlen (mem_aliasesOf.mpr ⟨hra, hc⟩)
    (mem_aliasesOf.mpr ⟨hr a ha, hi.symm⟩)
  exact this ▸ ha

theorem header_of_realDeleted (hr : ∀ a ∈ rows, a ∈ b.aliases.rows) {h : Header}
    (ha : a ∈ (b.realDeleted rows dc).aliases.rows) (hh : h ∈ b.headers.rows)
    (hi : h.id = a.contentId) : h ∈ (b.realDeleted rows dc).headers.rows := by
  obtain ⟨hm, hnot⟩ := (aliases_realDeleted hr).mp ha
  refine headers_realDeleted.mpr ⟨hh, ?_⟩
  rintro ⟨hman, hlen, -⟩
  exact hnot (mem_rows_of_dropped hr hman hlen hm hi.symm)

section

variable (hb : b.Linked) (hr : ∀ a ∈ rows, a ∈ b.aliases.rows)
include hb hr

theorem linked_realDeleted : (b.realDeleted rows dc).Linked := by
  constructor
  · intro a ha
    obtain ⟨h, hh, hi⟩ := hb.image a ((aliases_realDeleted hr).mp ha).1
    exact ⟨h, header_of_realDeleted hr ha hh hi, hi⟩
  · intro c hc
    obtain ⟨hm, hnot⟩ := contents_realDeleted.mp hc
    obtain ⟨k, hk, hi⟩ := hb.chunk c hm
    refine ⟨k, chunks_realDeleted.mpr ⟨hk, ?_⟩, hi⟩
    rintro ⟨-, hdel, hman, hlen⟩
    -- 消える chunk を指すのは集めた行だけ
    obtain ⟨-, c', hc', hi'⟩ := mem_manageAll_chunks.mp hman
    have hcm := (mem_manageAll_contents.mp hc').1
    have : c = c' := eq_of_length_le_one hlen (mem_contentsAt.mpr ⟨hm, hi.symm⟩)
      (mem_contentsAt.mpr ⟨hcm, hi'.symm⟩)
    exact hnot ⟨hdel, this ▸ hc'⟩

theorem unreferenced_realDeleted (hs : b.SharesNothing rows) :
    b.Unreferenced (b.realDeleted rows dc) := by
  have hheader : ∀ h ∈ b.headers.rows, h ∉ (b.realDeleted rows dc).headers.rows →
      .contentsHeaders h ∈ b.manageAll rows ∧ (b.aliasesOf h.id).length ≤ 1 := by
    intro h hm hnot
    rw [headers_realDeleted] at hnot
    have := not_not.mp fun hn => hnot ⟨hm, hn⟩
    exact ⟨this.1, this.2.1⟩
  refine ⟨?_, ?_, ?_, ?_⟩
  · intro h hm hnot a ha he
    obtain ⟨hman, hlen⟩ := hheader h hm hnot
    obtain ⟨ham, hna⟩ := (aliases_realDeleted hr).mp ha
    exact hna (mem_rows_of_dropped hr hman hlen ham he)
  · intro h hm hnot c hc he
    obtain ⟨hman, hlen⟩ := hheader h hm hnot
    obtain ⟨hcm, hnc⟩ := contents_realDeleted.mp hc
    exact hnc ⟨headerDeleted_manageAll.mpr ⟨h, hman, hlen⟩,
      mem_manageAll_contents.mpr ⟨hcm, h, hman, he⟩⟩
  · intro c hcm hnot a ha he
    rw [contents_realDeleted] at hnot
    obtain ⟨hdel, hman⟩ := not_not.mp fun hn => hnot ⟨hcm, hn⟩
    obtain ⟨-, h, hh, hch⟩ := mem_manageAll_contents.mp hman
    obtain ⟨-, x, hx, hi⟩ := mem_manageAll_headers.mp hh
    obtain ⟨ham, hna⟩ := (aliases_realDeleted hr).mp ha
    exact hs ((headerDeleted_iff hb hr).mp hdel) x hx a ham hna
      (he.trans (hch.trans hi)) c hcm (hch.trans hi)
  · intro k hk hnot c hc he
    rw [chunks_realDeleted] at hnot
    obtain ⟨-, hdel, hman, hlen⟩ := not_not.mp fun hn => hnot ⟨hk, hn⟩
    obtain ⟨hcm, hnc⟩ := contents_realDeleted.mp hc
    obtain ⟨-, c', hc', hi'⟩ := mem_manageAll_chunks.mp hman
    have : c = c' := eq_of_length_le_one hlen (mem_contentsAt.mpr ⟨hcm, he⟩)
      (mem_contentsAt.mpr ⟨(mem_manageAll_contents.mp hc').1, hi'.symm⟩)
    exact hnc ⟨hdel, this ▸ hc'⟩

theorem sound_realDeleted_iff : b.Sound (b.realDeleted rows dc) ↔ b.SharesNothing rows := by
  constructor
  · rintro ⟨-, hu⟩ hlast a ha r hrm hnot hc c hcm he
    obtain ⟨h, hh, hi⟩ := hb.image a (hr a ha)
    have hman : .contents c ∈ b.manageAll rows :=
      mem_manageAll_contents.mpr ⟨hcm, h, mem_manageAll_headers.mpr ⟨hh, a, ha, hi⟩,
        he.trans hi.symm⟩
    have hgone : c ∉ (b.realDeleted rows dc).contents.rows := fun hc' =>
      (contents_realDeleted.mp hc').2 ⟨(headerDeleted_iff hb hr).mpr hlast, hman⟩
    exact hu.content_alias c hcm hgone r ((aliases_realDeleted hr).mpr ⟨hrm, hnot⟩)
      (hc.trans he.symm)
  · intro hs
    exact ⟨linked_realDeleted hb hr, unreferenced_realDeleted hb hr hs⟩

end

/-! ## purge -/

/-- alias の purge は alias の表だけを変え、その行の名前と content は前からあった -/
structure AliasesFrom (b b' : Base) : Prop where
  contents : b'.contents = b.contents
  headers : b'.headers = b.headers
  chunks : b'.chunks = b.chunks
  snapshots : b'.snapshots = b.snapshots
  size : b'.size = b.size
  origin : ∀ a ∈ b'.aliases.rows, ∃ r ∈ b.aliases.rows,
    r.alias = a.alias ∧ r.contentId = a.contentId ∧ r.version ≤ a.version

theorem AliasesFrom.refl (b : Base) : b.AliasesFrom b :=
  ⟨rfl, rfl, rfl, rfl, rfl, fun a ha => ⟨a, ha, rfl, rfl, le_rfl⟩⟩

theorem AliasesFrom.trans {b1 b2 b3 : Base} (h : b1.AliasesFrom b2) (h' : b2.AliasesFrom b3) :
    b1.AliasesFrom b3 := by
  refine ⟨h'.contents.trans h.contents, h'.headers.trans h.headers, h'.chunks.trans h.chunks,
    h'.snapshots.trans h.snapshots, h'.size.trans h.size, fun a ha => ?_⟩
  obtain ⟨r, hr, hn, hc, hv⟩ := h'.origin a ha
  obtain ⟨q, hq, hn', hc', hv'⟩ := h.origin r hr
  exact ⟨q, hq, hn'.trans hn, hc'.trans hc, hv'.trans hv⟩

theorem aliasesFrom_purgeExceeding (b : Base) (m : Int) :
    b.AliasesFrom (b.purgeExceedingAliases m).1 := by
  simp only [purgeExceedingAliases]
  split
  · exact .refl b
  · refine ⟨rfl, rfl, rfl, rfl, rfl, fun a ha => ⟨a, ?_, rfl, rfl, le_rfl⟩⟩
    exact ((mem_eraseAll _).mp ha).1

theorem aliasesFrom_purgeDeleted {choice1 choice2 : Bytes → Nat} {now delay : Int}
    {out : List Alias} (h : b.purgeDeletedAliases choice1 choice2 now delay = .ok (b', out)) :
    b.AliasesFrom b' := by
  simp only [purgeDeletedAliases] at h
  split at h
  · cases h
  cases h
  refine ⟨rfl, rfl, rfl, rfl, rfl, fun a ha => ?_⟩
  rcases mem_of_replaceAll _ ha with ha | ha
  · obtain ⟨r, hr, rfl⟩ := mem_map.mp ha
    obtain ⟨n, -, hb⟩ := mem_filterMap.mp (mem_of_mem_filter hr)
    have hg := mem_of_getElem? hb
    refine ⟨r, (mem_aliasRows.mp (snapshotGroup_subset hg)).1, rfl, rfl, ?_⟩
    show r.version ≤ 1 + r.version
    omega
  · exact ⟨a, ((mem_eraseAll _).mp ha).1, rfl, rfl, le_rfl⟩

theorem aliasesFrom_purgeAliases (b : Base) (args : PurgeArgs) :
    b.AliasesFrom (b.purgeAliases args).1 := by
  have hex := aliasesFrom_purgeExceeding b args.maxVersions
  simp only [purgeAliases]
  split
  · split
    · next hok => exact hex.trans (aliasesFrom_purgeDeleted hok)
    · exact hex
  · exact hex

theorem purge_dryRun {args : PurgeArgs} (hd : args.dryRun = true) : (b.purge args).1 = b := by
  simp [purge, hd]

theorem purge_rows (b : Base) {args : PurgeArgs} (hd : args.dryRun = false) :
    ∃ b1, b.AliasesFrom b1 ∧ (b.purge args).1.aliases = b1.aliases ∧ (b.purge args).1.headers =
        b.headers.delete (fun h => !b1.aliases.rows.any (·.contentId = h.id)) ∧
      (b.purge args).1.contents =
        b.contents.delete (fun c => !b1.aliases.rows.any (·.contentId = c.contentId)) ∧
      (∀ k ∈ b.chunks.rows, k ∉ (b.purge args).1.chunks.rows →
        ∀ c ∈ (b.purge args).1.contents.rows, c.chunkId ≠ k.id) ∧
      (b.purge args).1.snapshots = b.snapshots ∧
      (b.purge args).1.size = (b.purge args).1.getContainerSize false := by
  have h := aliasesFrom_purgeAliases b args
  refine ⟨(b.purgeAliases args).1, h, ?_⟩
  cases hc : args.cb with
  | false =>
    simp only [purge, hd, hc, purgeRows, purgeContents, purgeHeaders, purgeProperties, setSize,
      getContainerSize, h.headers, h.contents, h.chunks, h.snapshots, Bool.false_eq_true, if_false,
      and_self, and_true, true_and]
    exact fun k hk hgone => absurd hk hgone
  | true =>
    simp only [purge, hd, hc, purgeRows, purgeChunks, purgeContents, purgeHeaders,
      purgeProperties, setSize, getContainerSize, h.headers, h.contents, h.chunks, h.snapshots,
      Bool.false_eq_true, if_false, if_true, and_self, and_true, true_and]
    intro k hk hgone c hcm he
    exact hgone ((mem_delete _).mpr ⟨hk, by simpa using ⟨c, by simpa using hcm, he⟩⟩)

theorem image_purge (hb : ∀ a ∈ b.aliases.rows, ∃ h ∈ b.headers.rows, h.id = a.contentId)
    (args : PurgeArgs) : ∀ a ∈ (b.purge args).1.aliases.rows,
      ∃ h ∈ (b.purge args).1.headers.rows, h.id = a.contentId := by
  cases hd : args.dryRun with
  | true =>
    rw [purge_dryRun hd]
    exact hb
  | false =>
    obtain ⟨b1, h, ha, hh, -⟩ := b.purge_rows hd
    intro a hma
    rw [ha] at hma
    obtain ⟨r, hr, -, hcid, -⟩ := h.origin a hma
    obtain ⟨hd', hmh, hi⟩ := hb r hr
    refine ⟨hd', ?_, hi.trans hcid⟩
    rw [hh, mem_delete]
    exact ⟨hmh, by simpa using ⟨a, hma, (hi.trans hcid).symm⟩⟩

/-- **purge は参照を壊さない。** -/
theorem purge_sound (hb : b.Linked) (args : PurgeArgs) : b.Sound (b.purge args).1 := by
  cases hd : args.dryRun with
  | true =>
    rw [purge_dryRun hd]
    exact ⟨hb, fun h hm hn => absurd hm hn, fun h hm hn => absurd hm hn,
      fun c hm hn => absurd hm hn, fun k hm hn => absurd hm hn⟩
  | false =>
    obtain ⟨b1, -, ha, hh, hc, hk, -⟩ := b.purge_rows hd
    refine ⟨⟨image_purge hb.image args, ?_⟩, ?_, ?_, ?_, hk⟩
    · intro c hcm
      by_contra hno
      push Not at hno
      have hcb : c ∈ b.contents.rows := by
        rw [hc, mem_delete] at hcm
        exact hcm.1
      obtain ⟨k, hkm, hi⟩ := hb.chunk c hcb
      exact hk k hkm (fun hk' => hno k hk' hi) c hcm hi.symm
    · intro hd' hmh hgone a hma he
      rw [hh, mem_delete] at hgone
      rw [ha] at hma
      exact hgone ⟨hmh, by simpa using ⟨a, hma, he⟩⟩
    · intro hd' hmh hgone c hcm he
      rw [hh, mem_delete] at hgone
      rw [hc, mem_delete] at hcm
      refine hgone ⟨hmh, ?_⟩
      rw [← he]
      exact hcm.2
    · intro c hcb hgone a hma he
      rw [hc, mem_delete] at hgone
      rw [ha] at hma
      exact hgone ⟨hcb, by simpa using ⟨a, hma, he⟩⟩

/-! ## 削除の全体 -/

/-- **alias の version の削除。** 本当の削除の後に参照が揃い、消えた行が指されないのは、選ばれた行の最後の参照に
残る行も使う content が無いときに限る。purge ではいつも成り立つ。 -/
theorem deletion_sound_iff (b : Base) (hb : b.Linked) :
    (∀ m url dc now rows a b' out, b.findAliases url { noprops := true } = .ok rows →
      b.lastManaged rows = some a → b.deletesReally m url a = true →
      b.deleteAlias m url dc now = .ok (b', out) → (b.Sound b' ↔ b.SharesNothing rows)) ∧
    ∀ args, b.Sound (b.purge args).1 := by
  refine ⟨fun m url dc now rows a b' out hf hl hd hok => ?_, purge_sound hb⟩
  obtain ⟨rows', a', hf', hl', hcase⟩ := deleteAlias_eq_ok hok
  rw [hf, Except.ok.injEq] at hf'
  subst hf'
  rw [hl, Option.some.injEq] at hl'
  subst hl'
  rcases hcase with ⟨-, rfl⟩ | ⟨hno, -⟩
  · exact sound_realDeleted_iff hb fun x hx => (mem_findAliases rfl hf hx).1
  · rw [hd] at hno
    cases hno

/-! ### 2 つの version を 1 度に消す場合 -/

/-- snapshot `s` の `p` の 2 つの version の 1 つの content を `q` も使う -/
def sharedBase : Base where
  aliases := ⟨[⟨ascii "p", 1, 5, ascii "x", [], 0, false⟩,
    ⟨ascii "p", 2, 5, ascii "y", [], 0, false⟩, ⟨ascii "q", 1, 6, ascii "x", [], 0, false⟩],
    by decide +kernel⟩
  properties := .empty
  contents := ⟨[⟨ascii "x", ascii "k", ascii "0"⟩, ⟨ascii "y", ascii "l", ascii "0"⟩],
    by decide +kernel⟩
  headers := ⟨[⟨ascii "x", some (ascii "none"), none, 1⟩,
    ⟨ascii "y", some (ascii "none"), none, 1⟩], by decide +kernel⟩
  chunks := ⟨[⟨ascii "k", [], 1, 0⟩, ⟨ascii "l", [], 1, 0⟩], by decide +kernel⟩
  snapshots := ⟨[⟨5, ascii "s"⟩], by decide +kernel⟩
  version := 6
  size := 2

theorem linked_sharedBase : sharedBase.Linked := ⟨by decide +kernel, by decide +kernel⟩

/-- `q` の version 1 だけを消すと、`p` の使う content は残る -/
theorem deletion_sound_sharedBase : ∃ b' out,
    sharedBase.deleteAlias 10 ⟨some (ascii "q"), some (ascii "1"), none⟩ true 9 = .ok (b', out) ∧
      sharedBase.Sound b' := by
  have hrows : sharedBase.findAliases ⟨some (ascii "q"), some (ascii "1"), none⟩
      { noprops := true } = .ok [⟨ascii "q", 1, 6, ascii "x", [], 0, false⟩] := by
    decide +kernel
  have hlast : sharedBase.lastManaged [⟨ascii "q", 1, 6, ascii "x", [], 0, false⟩] =
      some ⟨ascii "q", 1, 6, ascii "x", [], 0, false⟩ := by
    decide +kernel
  refine ⟨_, _, rfl, ?_⟩
  exact ((deletion_sound_iff sharedBase linked_sharedBase).1 10 _ true 9 _ _ _ _ hrows hlast
    (by decide +kernel) rfl).mpr (sharesNothing_singleton (by decide +kernel))

/-- snapshot を名指して `p` を消すと、`q` の content の行まで消える -/
theorem deletion_unsound_sharedBase : sharedBase.Linked ∧ ∃ b' out,
    sharedBase.deleteAlias 1 ⟨some (ascii "p"), none, some (ascii "s")⟩ true 9 = .ok (b', out) ∧
      b'.aliases.rows = [⟨ascii "q", 1, 6, ascii "x", [], 0, false⟩] ∧
      b'.contents.rows = [] ∧ ¬ sharedBase.Sound b' := by
  refine ⟨linked_sharedBase, _, _, rfl, by decide +kernel, by decide +kernel, fun h => ?_⟩
  refine h.2.content_alias ⟨ascii "x", ascii "k", ascii "0"⟩ (by decide +kernel)
    (by decide +kernel) ⟨ascii "q", 1, 6, ascii "x", [], 0, false⟩ (by decide +kernel) rfl

end Base

end Redcurrant.Meta2
