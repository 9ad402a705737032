import Redcurrant.Infra.Counted
import Redcurrant.Meta2.Integrity
import Redcurrant.Meta2.Listing

/-!
# chunk の重複の除去

`dedup_chunks_of_alias` は 1 つの名前の chunk のうち、hash も位置の中での順番（`copy`）も同じものをまとめる。
-/

namespace Redcurrant.Meta2

open Infra Sqliterepo List

/-- `ORDER BY` の無い問い合わせが行を読む順 -/
structure LoadOrder where
  chunks : List Chunk → List Chunk
  perm_chunks : ∀ l, (chunks l).Perm l
  contents : List Content → List Content
  perm_contents : ∀ l, (contents l).Perm l

def LoadOrder.rowid : LoadOrder := ⟨id, fun _ => .refl _, id, fun _ => .refl _⟩

namespace Base

variable (ord : LoadOrder) (b : Base)

/-! ## 複製の番号 -/

/-- view `xcv2` の `copy`。同じ位置の rowid の小さい行の数。 -/
def copyOf (c : Content) : Nat :=
  ((b.contents.rows.takeWhile (· ≠ c)).filter fun d =>
    d.contentId = c.contentId && d.position = c.position).length

/-- view `aivpch` に名前・複製の番号・chunk の行がある -/
def occursAt (name : Bytes) (copy : Nat) (id : Bytes) : Bool :=
  b.contents.rows.any fun c => c.chunkId = id && b.copyOf c = copy &&
    b.aliases.rows.any fun a => a.alias = name && a.contentId = c.contentId

/-! ## 置き換え -/

/-- `_substitute_chunk_cb`。新しい行を保存してから、前の行を消す。 -/
def substituteRow (new : Bytes) (b : Base) (c : Content) : Base :=
  { b with contents := (b.contents.replaceInto { c with chunkId := new }).erase c }

def substituteOld (new : Bytes) (b : Base) (old : Bytes) : Base :=
  (ord.contents (b.contents.rows.filter (·.chunkId = old))).foldl (substituteRow new) b

def substituteChunk (new : Bytes) (olds : List Bytes) : Base := olds.foldl (substituteOld ord new) b

/-- 組の先頭の chunk で、残りを置き換える -/
def substituteGroup (b : Base) : List Bytes → Base
  | [] => b
  | new :: olds => b.substituteChunk ord new olds

/-! ## 組 -/

/-- その hash と複製の番号の chunk のうち、まだ `already_dedup` に無いもの。id は主鍵なので重ならない。 -/
def sameHash (name hash : Bytes) (copy : Nat) (already : List Bytes) : List Bytes :=
  ((ord.chunks (b.chunks.rows.filter fun k => k.hash = hash && b.occursAt name copy k.id)).map
    Chunk.id).filter fun id => !already.contains id

/-- 複製の番号が `n` より小さい chunk を集めた後の `already_dedup` -/
def alreadyAfter (name hash : Bytes) (already : List Bytes) : Nat → List Bytes
  | 0 => already
  | n + 1 =>
    let before := alreadyAfter name hash already n
    before ++ b.sameHash ord name hash n before

/-- `chunk_groups`。2 つ以上の組だけが複製の番号の大きい順に残る。 -/
def chunkGroups (name hash : Bytes) (already : List Bytes) (copyCount : Nat) : List (List Bytes) :=
  (((List.range copyCount).map fun copy =>
    b.sameHash ord name hash copy (b.alreadyAfter ord name hash already copy)).filter
      fun g => 2 ≤ g.length).reverse

/-! ## 除去 -/

/-- `dedup_chunks_of_alias` の loop の 1 回 -/
def processChunk (name : Bytes) (copyCount : Nat) (s : Base × List Bytes) (k : Chunk) :
    Base × List Bytes :=
  if s.2.contains k.id then s
  else ((s.1.chunkGroups ord name k.hash s.2 copyCount).foldl (substituteGroup ord) s.1,
    s.1.alreadyAfter ord name k.hash s.2 copyCount)

/-- `chunk_array`。名前の content の、最初の複製の chunk。 -/
def chunkArray (name : Bytes) : List Chunk :=
  ord.chunks (b.chunks.rows.filter fun k => b.occursAt name 0 k.id)

/-- `dedup_chunks_of_alias`。引数は名前と、policy の複製の数。 -/
def dedupChunksOfAlias (b : Base) (r : Bytes × Nat) : Base :=
  ((b.chunkArray ord r.1).foldl (processChunk ord r.1 r.2) (b, [])).1

def dedupRuns (b : Base) (runs : List (Bytes × Nat)) : Base := runs.foldl (dedupChunksOfAlias ord) b

/-- `m2db_deduplicate_chunks`。一覧は S3 の最初の 1000 行になる。policy を読めない名前は飛ばす。 -/
def deduplicateChunks (scan : Scan) (copyCount : Bytes → Except GError Nat) :
    Except GError Base := do
  let beans ← b.listAliases scan { nodeleted := true, type := .s3 none none 0 }
  .ok (b.dedupRuns ord ((aliasesIn beans).filterMap fun a =>
    (copyCount a.alias).toOption.map fun n => (a.alias, n)))

/-! ## 位置の複製 -/

def chunksAt (contentId position : Bytes) : Finset Bytes :=
  ((b.contents.rows.filter fun c => c.contentId = contentId && c.position = position).map
    Content.chunkId).toFinset

def distinctChunks (place : Bytes × Bytes) : Nat := (b.chunksAt place.1 place.2).card

/-- その hash の chunk -/
def Hashed (hash id : Bytes) : Prop := ∃ c ∈ b.chunks.rows, c.id = id ∧ c.hash = hash

/-- 複製の番号の中で最も小さいものが `copy` -/
def FirstAt (name : Bytes) (copy : Nat) (id : Bytes) : Prop :=
  b.occursAt name copy id = true ∧ ∀ j < copy, b.occursAt name j id = false

/-- loop の 1 回で、同じ位置の chunk が同じ組に入らない条件。扱った chunk は組に入らない。 -/
def Separated (name : Bytes) (copyCount : Nat) (s : Base × List Bytes) (k : Chunk) : Prop :=
  k.id ∈ s.2 ∨ ∀ place : Bytes × Bytes, ∀ x ∈ s.1.chunksAt place.1 place.2,
    ∀ y ∈ s.1.chunksAt place.1 place.2, x ≠ y → x ∉ s.2 → y ∉ s.2 →
      s.1.Hashed k.hash x → s.1.Hashed k.hash y →
      ∀ copy < copyCount, s.1.FirstAt name copy x → ¬ s.1.FirstAt name copy y

/-- どの回のどの step の前にも条件が成り立つ -/
def SeparatedRuns (runs : List (Bytes × Nat)) : Prop :=
  Along (dedupChunksOfAlias ord)
    (fun b r => Along (processChunk ord r.1 r.2) (Separated r.1 r.2) (b, []) (b.chunkArray ord r.1))
    b runs

/-! ## 置き換えた後の行 -/

section

variable {ord} {b b' b'' : Base} {f f' : Bytes → Bytes} {name hash : Bytes} {already : List Bytes}
  {id old new x : Bytes} {copy : Nat}

/-- content の行の chunk を `f` で置き換えた base -/
def Renames (f : Bytes → Bytes) (b b' : Base) : Prop :=
  ∀ c', c' ∈ b'.contents.rows ↔ ∃ c ∈ b.contents.rows, c' = { c with chunkId := f c.chunkId }

theorem Renames.comp (h : Renames f b b') (h' : Renames f' b' b'') : Renames (f' ∘ f) b b'' := by
  intro c''
  rw [h' c'']
  constructor
  · rintro ⟨c', hc', rfl⟩
    obtain ⟨c, hc, rfl⟩ := (h c').mp hc'
    exact ⟨c, hc, rfl⟩
  · rintro ⟨c, hc, rfl⟩
    exact ⟨_, (h _).mpr ⟨c, hc, rfl⟩, rfl⟩

theorem mem_substituteRow {c d : Content} (hne : c.chunkId ≠ new) :
    d ∈ (substituteRow new b c).contents.rows ↔
      (d ∈ b.contents.rows ∧ d ≠ c) ∨ d = { c with chunkId := new } := by
  have hc : ({ c with chunkId := new } : Content) ≠ c := fun he =>
    hne (congrArg Content.chunkId he).symm
  simp only [substituteRow, RowTable.mem_erase, RowTable.mem_replaceInto, clash_content]
  constructor
  · rintro ⟨⟨hd, -⟩ | rfl, hdc⟩
    · exact .inl ⟨hd, Ne.symm hdc⟩
    · exact .inr rfl
  · rintro (⟨hd, hdc⟩ | rfl)
    · refine ⟨?_, Ne.symm hdc⟩
      by_cases he : { c with chunkId := new } = d
      · exact .inr he.symm
      · exact .inl ⟨hd, he⟩
    · exact ⟨.inr rfl, Ne.symm hc⟩

theorem mem_foldl_substituteRow (hne : old ≠ new) {l : List Content}
    (hl : ∀ c ∈ l, c.chunkId = old) {d : Content} :
    d ∈ (l.foldl (substituteRow new) b).contents.rows ↔
      (d ∈ b.contents.rows ∧ d ∉ l) ∨ ∃ c ∈ l, d = { c with chunkId := new } := by
  induction l generalizing b with
  | nil => simp
  | cons c l ih =>
    obtain ⟨hc, hl'⟩ := forall_mem_cons.mp hl
    -- 書いた行の chunk は `new`
    have hnew : ({ c with chunkId := new } : Content) ∉ l := fun hm => hne (hl' _ hm).symm
    rw [foldl_cons, ih hl', mem_substituteRow (hc ▸ hne)]
    simp only [mem_cons, not_or, exists_eq_or_imp]
    constructor
    · rintro (⟨⟨hd, hdc⟩ | rfl, hdl⟩ | h)
      · exact .inl ⟨hd, hdc, hdl⟩
      · exact .inr (.inl rfl)
      · exact .inr (.inr h)
    · rintro (⟨hd, hdc, hdl⟩ | rfl | h)
      · exact .inl ⟨.inl ⟨hd, hdc⟩, hdl⟩
      · exact .inl ⟨.inr rfl, hnew⟩
      · exact .inr h

theorem renames_substituteOld (hne : old ≠ new) :
    Renames (mergeInto new [old]) b (substituteOld ord new b old) := by
  have hmem : ∀ c, c ∈ ord.contents (b.contents.rows.filter (·.chunkId = old)) ↔
      c ∈ b.contents.rows ∧ c.chunkId = old := by
    intro c
    rw [(ord.perm_contents _).mem_iff, mem_filter, decide_eq_true_eq]
  intro d
  rw [substituteOld, mem_foldl_substituteRow hne fun c hc => ((hmem c).mp hc).2]
  simp only [hmem]
  constructor
  · rintro (⟨hd, hnot⟩ | ⟨c, ⟨hc, hco⟩, rfl⟩)
    · have hdo : d.chunkId ≠ old := fun he => hnot ⟨hd, he⟩
      exact ⟨d, hd, by simp [mergeInto, hdo]⟩
    · exact ⟨c, hc, by simp [mergeInto, hco]⟩
  · rintro ⟨c, hc, rfl⟩
    by_cases hco : c.chunkId = old
    · exact .inr ⟨c, ⟨hc, hco⟩, by simp [mergeInto, hco]⟩
    have hsame : mergeInto new [old] c.chunkId = c.chunkId := by simp [mergeInto, hco]
    rw [hsame]
    exact .inl ⟨hc, fun h => hco h.2⟩

theorem renames_substituteChunk {olds : List Bytes} (hne : new ∉ olds) :
    Renames (mergeInto new olds) b (b.substituteChunk ord new olds) := by
  induction olds generalizing b with
  | nil =>
    intro d
    simp [substituteChunk, mergeInto]
  | cons old olds ih =>
    obtain ⟨hold, hrest⟩ := not_or.mp (mt mem_cons.mpr hne)
    have hcomp : mergeInto new (old :: olds) = mergeInto new olds ∘ mergeInto new [old] := by
      funext x
      simp only [Function.comp, mergeInto]
      grind
    rw [hcomp]
    exact (renames_substituteOld (Ne.symm hold)).comp (ih hrest)

theorem renames_foldl_group {gs : List (List Bytes)} (hn : ∀ g ∈ gs, g.Nodup) :
    Renames (mergeGroups gs) b (gs.foldl (substituteGroup ord) b) := by
  induction gs generalizing b with
  | nil =>
    intro d
    simp [mergeGroups]
  | cons g gs ih =>
    obtain ⟨hg, hgs⟩ := forall_mem_cons.mp hn
    cases g with
    | nil => exact ih hgs
    | cons new olds => exact (renames_substituteChunk (nodup_cons.mp hg).1).comp (ih hgs)

theorem mem_chunksAt {contentId position : Bytes} : x ∈ b.chunksAt contentId position ↔
    ∃ c ∈ b.contents.rows, c.contentId = contentId ∧ c.position = position ∧ c.chunkId = x := by
  simp [chunksAt, and_assoc]

theorem Renames.chunksAt (h : Renames f b b') (contentId position : Bytes) :
    b'.chunksAt contentId position = (b.chunksAt contentId position).image f := by
  ext x
  rw [Finset.mem_image, mem_chunksAt]
  constructor
  · rintro ⟨c', hc', hi, hp, rfl⟩
    obtain ⟨c, hc, rfl⟩ := (h c').mp hc'
    exact ⟨c.chunkId, mem_chunksAt.mpr ⟨c, hc, hi, hp, rfl⟩, rfl⟩
  · rintro ⟨y, hy, rfl⟩
    obtain ⟨c, hc, hi, hp, rfl⟩ := mem_chunksAt.mp hy
    exact ⟨_, (h _).mpr ⟨c, hc, rfl⟩, hi, hp, rfl⟩

/-! ## 組の内容 -/

theorem nodup_chunkIds (b : Base) : (b.chunks.rows.map Chunk.id).Nodup :=
  pairwise_map.mpr (b.chunks.unique.imp fun hc he => hc (clash_chunk.mpr he))

theorem mem_sameHash : id ∈ b.sameHash ord name hash copy already ↔
    b.Hashed hash id ∧ b.occursAt name copy id = true ∧ id ∉ already := by
  simp only [sameHash, mem_filter, mem_map, (ord.perm_chunks _).mem_iff,
    Bool.and_eq_true, decide_eq_true_eq, Bool.not_eq_true', contains_eq_mem,
    decide_eq_false_iff_not, Hashed]
  constructor
  · rintro ⟨⟨k, ⟨hk, hh, ho⟩, rfl⟩, hn⟩
    exact ⟨⟨k, hk, rfl, hh⟩, ho, hn⟩
  · rintro ⟨⟨k, hk, rfl, hh⟩, ho, hn⟩
    exact ⟨⟨k, ⟨hk, hh, ho⟩, rfl⟩, hn⟩

theorem nodup_sameHash : (b.sameHash ord name hash copy already).Nodup := by
  refine List.Nodup.filter _ ?_
  refine ((ord.perm_chunks _).map Chunk.id).nodup_iff.mpr ?_
  exact (nodup_chunkIds b).sublist (filter_sublist.map _)

theorem mem_alreadyAfter {n : Nat} : id ∈ b.alreadyAfter ord name hash already n ↔
    id ∈ already ∨ ∃ copy < n, b.Hashed hash id ∧ b.occursAt name copy id = true := by
  induction n with
  | zero => simp [alreadyAfter]
  | succ n ih =>
    simp only [alreadyAfter, mem_append, ih, mem_sameHash]
    constructor
    · rintro ((h | ⟨copy, hc, h⟩) | ⟨hh, ho, -⟩)
      · exact .inl h
      · exact .inr ⟨copy, hc.trans (Nat.lt_succ_self n), h⟩
      · exact .inr ⟨n, Nat.lt_succ_self n, hh, ho⟩
    · rintro (h | ⟨copy, hc, hh, ho⟩)
      · exact .inl (.inl h)
      by_cases hn : id ∈ already ∨ ∃ copy < n, b.Hashed hash id ∧ b.occursAt name copy id = true
      · exact .inl hn
      rcases Nat.lt_succ_iff_lt_or_eq.mp hc with hc | rfl
      · exact absurd (.inr ⟨copy, hc, hh, ho⟩) hn
      · exact .inr ⟨hh, ho, hn⟩

theorem mem_group (ord : LoadOrder) : id ∈ b.sameHash ord name hash copy
      (b.alreadyAfter ord name hash already copy) ↔
    b.Hashed hash id ∧ id ∉ already ∧ b.FirstAt name copy id := by
  rw [mem_sameHash, mem_alreadyAfter]
  constructor
  · rintro ⟨hh, ho, hn⟩
    refine ⟨hh, fun hm => hn (.inl hm), ho, fun j hj => ?_⟩
    by_contra hoj
    exact hn (.inr ⟨j, hj, hh, by simpa using hoj⟩)
  · rintro ⟨hh, ha, ho, hfirst⟩
    refine ⟨hh, ho, ?_⟩
    rintro (hm | ⟨j, hj, -, hoj⟩)
    · exact ha hm
    · rw [hfirst j hj] at hoj
      cases hoj

theorem mem_chunkGroups {copyCount : Nat} {g : List Bytes} :
    g ∈ b.chunkGroups ord name hash already copyCount ↔ 2 ≤ g.length ∧ ∃ copy < copyCount,
      b.sameHash ord name hash copy (b.alreadyAfter ord name hash already copy) = g := by
  simp [chunkGroups, and_comm]

theorem disjoint_chunkGroups (copyCount : Nat) :
    (b.chunkGroups ord name hash already copyCount).Pairwise List.Disjoint := by
  rw [chunkGroups, pairwise_reverse]
  refine List.Pairwise.filter _ (pairwise_map.mpr ?_)
  refine pairwise_lt_range.imp ?_
  intro i j hij x hj hi
  -- `i` の組の chunk は先に `already_dedup` に入る
  obtain ⟨-, -, -, hfirst⟩ := (mem_group ord).mp hj
  obtain ⟨-, -, ho, -⟩ := (mem_group ord).mp hi
  rw [hfirst i hij] at ho
  cases ho

/-! ## 1 step と run -/

variable {copyCount : Nat} {s : Base × List Bytes} {k : Chunk}

theorem renames_processChunk (hk : k.id ∉ s.2) :
    Renames (mergeGroups (s.1.chunkGroups ord name k.hash s.2 copyCount)) s.1
      (processChunk ord name copyCount s k).1 := by
  have hstep : (processChunk ord name copyCount s k).1 =
      (s.1.chunkGroups ord name k.hash s.2 copyCount).foldl (substituteGroup ord) s.1 := by
    simp [processChunk, hk]
  rw [hstep]
  refine renames_foldl_group fun g hg => ?_
  obtain ⟨-, copy, -, rfl⟩ := mem_chunkGroups.mp hg
  exact nodup_sameHash

section

variable (ord : LoadOrder) (name : Bytes) (copyCount : Nat) (s : Base × List Bytes) (k : Chunk)

theorem processChunk_le (place : Bytes × Bytes) :
    (processChunk ord name copyCount s k).1.distinctChunks place ≤ s.1.distinctChunks place := by
  by_cases hk : k.id ∈ s.2
  · have hstep : processChunk ord name copyCount s k = s := by simp [processChunk, hk]
    rw [hstep]
  · rw [distinctChunks, (renames_processChunk hk).chunksAt]
    exact Finset.card_image_le

theorem processChunk_keeps_iff : (∀ place, s.1.distinctChunks place ≤
      (processChunk ord name copyCount s k).1.distinctChunks place) ↔
    Separated name copyCount s k := by
  by_cases hk : k.id ∈ s.2
  · have hstep : processChunk ord name copyCount s k = s := by simp [processChunk, hk]
    rw [hstep]
    exact iff_of_true (fun _ => le_rfl) (.inl hk)
  rw [Separated, or_iff_right hk]
  refine forall_congr' fun place => ?_
  rw [distinctChunks, distinctChunks, (renames_processChunk hk).chunksAt,
    card_le_image_mergeGroups_iff (disjoint_chunkGroups copyCount)]
  refine forall₂_congr fun x _ => forall₂_congr fun y _ => forall_congr' fun hne => ?_
  constructor
  · intro h hx hy hhx hhy copy hcopy hfx hfy
    have hxm := (mem_group ord).mpr ⟨hhx, hx, hfx⟩
    have hym := (mem_group ord).mpr ⟨hhy, hy, hfy⟩
    refine h _ (mem_chunkGroups.mpr ⟨?_, copy, hcopy, rfl⟩) hxm hym
    by_contra hlen
    exact hne (eq_of_length_le_one (by omega) hxm hym)
  · intro h g hg hxg hyg
    obtain ⟨-, copy, hcopy, rfl⟩ := mem_chunkGroups.mp hg
    obtain ⟨hhx, hx, hfx⟩ := (mem_group ord).mp hxg
    obtain ⟨hhy, hy, hfy⟩ := (mem_group ord).mp hyg
    exact h hx hy hhx hhy copy hcopy hfx hfy

end

/-- **複製の数の保存。** 重複の除去を何度走らせても、どの位置でも異なる chunk の数が減らないのはどの step でも同じ
位置の chunk が 1 つの組に入らないときに限る。 -/
theorem dedup_keeps_copies_iff (ord : LoadOrder) (b : Base) (runs : List (Bytes × Nat)) :
    (∀ place, b.distinctChunks place ≤ (b.dedupRuns ord runs).distinctChunks place) ↔
      b.SeparatedRuns ord runs := by
  have hone : ∀ (b : Base) (r : Bytes × Nat) (place : Bytes × Bytes),
      (dedupChunksOfAlias ord b r).distinctChunks place ≤ b.distinctChunks place := by
    intro b r place
    exact foldl_le (m := fun s : Base × List Bytes => s.1.distinctChunks)
      (processChunk_le ord r.1 r.2) (b.chunkArray ord r.1) (b, []) place
  rw [dedupRuns, foldl_keeps_iff (m := distinctChunks) hone]
  refine along_congr (fun b r => ?_) runs b
  rw [← along_congr (processChunk_keeps_iff ord r.1 r.2)]
  exact foldl_keeps_iff (m := fun s : Base × List Bytes => s.1.distinctChunks)
    (processChunk_le ord r.1 r.2) (b.chunkArray ord r.1) (b, [])

/-! ### 2 度目の除去 -/

/-- 同じ hash の 2 つの複製を 2 つの位置に持つ content -/
def twoCopies : Base :=
  Base.init.saveAll [.aliases ⟨ascii "p", 1, 1, ascii "u", [], 1, false⟩,
    .chunks ⟨ascii "a0", ascii "h", 1, 0⟩, .chunks ⟨ascii "a1", ascii "h", 1, 0⟩,
    .chunks ⟨ascii "b0", ascii "h", 1, 0⟩, .chunks ⟨ascii "b1", ascii "h", 1, 0⟩,
    .contents ⟨ascii "u", ascii "a0", ascii "0"⟩, .contents ⟨ascii "u", ascii "a1", ascii "0"⟩,
    .contents ⟨ascii "u", ascii "b0", ascii "1"⟩, .contents ⟨ascii "u", ascii "b1", ascii "1"⟩]

/-- 1 度目の除去は 2 つの位置の chunk を共有させ、2 度目は位置 0 の複製を 1 つにする -/
theorem second_run_loses_copy : twoCopies.distinctChunks (ascii "u", ascii "0") = 2 ∧
    (twoCopies.dedupRuns .rowid [(ascii "p", 2)]).distinctChunks (ascii "u", ascii "0") = 2 ∧
    (twoCopies.dedupRuns .rowid [(ascii "p", 2), (ascii "p", 2)]).distinctChunks
      (ascii "u", ascii "0") = 1 := by
  refine ⟨by decide +kernel, by decide +kernel, by decide +kernel⟩

end

end Base

end Redcurrant.Meta2
