import Redcurrant.Meta2.Check

/-!
# 検査に通った複製の content

hook の列が欠陥を積まないことを chunk の列の条件で言い直す。位置ごとの検査には `Infra.Blocks` を使う。
-/

namespace Redcurrant.Meta2

open Infra Metautils Sqliterepo List

variable {args : CheckArgs} {pol : StoragePolicy} {r d : Nat}

/-! ## 位置の順 -/

/-- 順位から位置を読み戻す -/
def Position.ofRank (x : Int ×ₗ Int ×ₗ Int) : Position :=
  ⟨(ofLex x).1, (ofLex (ofLex x).2).1 == 1, (ofLex (ofLex x).2).2⟩

@[simp] theorem Position.ofRank_rank (p : Position) : Position.ofRank p.rank = p := by
  obtain ⟨m, b, n⟩ := p
  cases b <;> rfl

theorem Position.rank_inj {p q : Position} : p.rank = q.rank ↔ p = q := by
  constructor
  · intro h
    rw [← p.ofRank_rank, h, q.ofRank_rank]
  · exact congrArg Position.rank

theorem Position.metaPos_le_of_rank {p q : Position} (h : p.rank ≤ q.rank) :
    p.metaPos ≤ q.metaPos := by
  rcases Prod.Lex.toLex_le_toLex.mp h with h | ⟨h, -⟩
  · exact h.le
  · exact h.le

def ChunkPair.block (p : ChunkPair) : Int := p.position.metaPos

/-! ## 1 つの位置の検査 -/

/-- 同じ位置の chunk の組が検査に通ること -/
def GroupOk (args : CheckArgs) (r d : Nat) (g : List ChunkPair) : Prop :=
  alertForInvalidDupliStgpol args r d g = []

variable {p last : ChunkPair} {l g : List ChunkPair}

theorem groupOk_cons_iff : GroupOk args r d (p :: l) ↔
    (∀ q ∈ l, q.chunk.size = p.chunk.size) ∧ (∀ q ∈ l, q.chunk.hash = p.chunk.hash) ∧
    (p :: l).length = r ∧ (∀ q ∈ p :: l, (args.locationFromChunk q.chunk).isSome) ∧
    checkDistances ((p :: l).filterMap fun q => args.locationFromChunk q.chunk) d = true := by
  have hlen : ((if (p :: l).length < r then
        [Flaw.dupliToofew (p :: l) (r - (p :: l).length) d]
      else if r < (p :: l).length then [Flaw.dupliToomuch (p :: l) ((p :: l).length - r)]
      else []) = []) ↔ (p :: l).length = r := by
    split
    · simp only [cons_ne_nil, false_iff]
      omega
    split
    · simp only [cons_ne_nil, false_iff]
      omega
    · simp only [true_iff]
      omega
  simp only [GroupOk, alertForInvalidDupliStgpol, append_eq_nil_iff, hlen,
    map_eq_nil_iff, filter_eq_nil_iff, ite_eq_right_iff, ite_eq_left_iff,
    cons_ne_nil, imp_false, any_eq_true, not_exists, not_and, bne_iff_ne, ne_eq,
    not_not, Option.isNone_iff_eq_none, ← Option.isSome_iff_ne_none, and_assoc]

theorem GroupOk.uniform (h : GroupOk args r d g) {q : ChunkPair} (hp : p ∈ g) (hq : q ∈ g) :
    p.chunk.size = q.chunk.size ∧ p.chunk.hash = q.chunk.hash := by
  cases g with
  | nil => cases hp
  | cons x l =>
    obtain ⟨hs, hh, -⟩ := groupOk_cons_iff.mp h
    have hx : ∀ y ∈ x :: l, y.chunk.size = x.chunk.size ∧ y.chunk.hash = x.chunk.hash := by
      intro y hy
      rcases mem_cons.mp hy with rfl | hy
      · exact ⟨rfl, rfl⟩
      · exact ⟨hs y hy, hh y hy⟩
    exact ⟨(hx p hp).1.trans (hx q hq).1.symm, (hx p hp).2.trans (hx q hq).2.symm⟩

theorem GroupOk.length (h : GroupOk args r d g) (hne : g ≠ []) : g.length = r := by
  cases g with
  | nil => exact absurd rfl hne
  | cons x l => exact (groupOk_cons_iff.mp h).2.2.1

/-! ## 位置を読む loop -/

/-- 位置の hook が残りの chunk と終わりとで積む欠陥 -/
def stgpolRun (args : CheckArgs) (r d : Nat) (s : DupliStgpol) : List ChunkPair → List Flaw
  | [] => hookEndDupliStgpol args r d s
  | p :: l =>
    (hookChunkDupliStgpol args r d s p).2 ++
      stgpolRun args r d (hookChunkDupliStgpol args r d s p).1 l

theorem stgpolRun_cons (s : DupliStgpol) (p : ChunkPair) (l : List ChunkPair) :
    stgpolRun args r d s (p :: l) = (hookChunkDupliStgpol args r d s p).2 ++
      stgpolRun args r d (hookChunkDupliStgpol args r d s p).1 l :=
  rfl

theorem hookChunkDupliStgpol_same (h : p.block = last.block) :
    hookChunkDupliStgpol args r d ⟨some last, g⟩ p = (⟨some p, g ++ [p]⟩, []) :=
  if_neg (not_not.mpr h)

theorem hookChunkDupliStgpol_next (h : p.block ≠ last.block) :
    hookChunkDupliStgpol args r d ⟨some last, g⟩ p = (⟨some p, [p]⟩,
      (if last.block + 1 ≠ p.block then [.dupliGap (last.block + 1) (p.block - 1)] else []) ++
        alertForInvalidDupliStgpol args r d g) :=
  if_pos h

/-- **位置の hook が欠陥を積まないのは列が隙間の無い塊の列であるとき。** 残りの列 `l` の帰納法。 -/
theorem stgpolRun_eq_nil_iff :
    ∀ {g : List ChunkPair} {last : ChunkPair}, (∀ a ∈ g, a.block = last.block) → g ≠ [] →
      (∀ b ∈ l, last.block ≤ b.block) → l.Pairwise (·.block ≤ ·.block) →
      (stgpolRun args r d ⟨some last, g⟩ l = [] ↔
        Blocks ChunkPair.block (GroupOk args r d) last.block (g ++ l)) := by
  induction l with
  | nil =>
    intro g last hg hne _ _
    rw [append_nil, blocks_single hg hne]
    simp [stgpolRun, hookEndDupliStgpol, GroupOk]
  | cons p l ih =>
    intro g last hg hne hlast hs
    obtain ⟨hp, hs⟩ := pairwise_cons.mp hs
    by_cases h : p.block = last.block
    · have hg' : ∀ a ∈ g ++ [p], a.block = p.block := by
        intro a ha
        rcases mem_append.mp ha with ha | ha
        · rw [hg a ha, h]
        · rw [mem_singleton.mp ha]
      rw [stgpolRun_cons, hookChunkDupliStgpol_same h, nil_append, ih hg' (by simp) hp hs, h,
        append_assoc, singleton_append]
    have hlt : last.block < p.block := lt_of_le_of_ne (hlast p mem_cons_self) (Ne.symm h)
    have hle : ∀ b ∈ p :: l, p.block ≤ b.block := by
      intro b hb
      rcases mem_cons.mp hb with rfl | hb
      · exact le_rfl
      · exact hp b hb
    have ih := ih (g := [p]) (by simp) (by simp) hp hs
    rw [singleton_append] at ih
    rw [blocks_append hg hlt hle hne, ← ih, stgpolRun_cons,
      hookChunkDupliStgpol_next h, append_eq_nil_iff, append_eq_nil_iff,
      ite_eq_right_iff, and_assoc]
    simp only [cons_ne_nil, imp_false, ne_eq, not_not, GroupOk]
    rw [eq_comm]

theorem stgpolRun_init (hne : l ≠ []) (hs : l.Pairwise (·.block ≤ ·.block)) :
    stgpolRun args r d ⟨none, []⟩ l = [] ↔ ∃ m, Blocks ChunkPair.block (GroupOk args r d) m l := by
  cases l with
  | nil => exact absurd rfl hne
  | cons p l =>
    obtain ⟨hp, hs⟩ := pairwise_cons.mp hs
    have hrun : stgpolRun args r d ⟨none, []⟩ (p :: l) = stgpolRun args r d ⟨some p, [p]⟩ l := rfl
    rw [hrun, stgpolRun_eq_nil_iff (by simp) (by simp) hp hs]
    constructor
    · exact fun h => ⟨p.block, h⟩
    · rintro ⟨m, h⟩
      -- 先頭の位置は最小なので、`m` でなければならない
      rcases h.2 p mem_cons_self with he | ⟨b, hb, he⟩
      · exact he ▸ h
      rcases mem_cons.mp hb with rfl | hb
      · omega
      · have := hp b hb
        omega

/-! ## 大きさの和 -/

theorem foldl_totalSize : ∀ (l : List ChunkPair) (last : Option ChunkPair) (t : Int),
    toInt64 t = t →
    (l.foldl hookChunkDupliTotalSize ⟨last, t⟩).sizeTotal =
      toInt64 (t + changeSum (·.position.rank) (·.chunk.size) (last.map (·.position.rank)) l)
  | [], _, t, ht => by simp [changeSum, ht]
  | p :: l, last, t, ht => by
    rw [foldl_cons, changeSum]
    have hany : (last.any fun q => q.position == p.position) = true ↔
        last.map (·.position.rank) = some p.position.rank := by
      cases last with
      | none => simp
      | some q => simp [Position.rank_inj]
    by_cases h : last.map (·.position.rank) = some p.position.rank
    · rw [if_pos h, zero_add, hookChunkDupliTotalSize, if_pos (hany.mpr h),
        foldl_totalSize l last t ht, h]
    rw [if_neg h, hookChunkDupliTotalSize, if_neg (mt hany.mp h),
      foldl_totalSize l _ _ (by simp [toInt64]), toInt64_add_toInt64, add_assoc]
    rfl

/-! ## 4 つの hook -/

section

variable {s : DupliCheck} {p : ChunkPair} {l : List ChunkPair}

theorem flaws_checkOneChunk (h : (checkOneChunk args pol r d s p).flaws = []) :
    s.flaws = [] ∧ p.position.rain = -1 := by
  rw [checkOneChunk] at h
  split at h
  · simp at h
  · rename_i hr
    exact ⟨(append_eq_nil_iff.mp h).1, not_not.mp hr⟩

theorem flaws_foldl (h : (l.foldl (checkOneChunk args pol r d) s).flaws = []) :
    s.flaws = [] ∧ ∀ p ∈ l, p.position.rain = -1 := by
  induction l generalizing s with
  | nil => exact ⟨h, by simp⟩
  | cons p l ih =>
    obtain ⟨hs, hl⟩ := ih h
    obtain ⟨hs, hp⟩ := flaws_checkOneChunk hs
    exact ⟨hs, by simpa using ⟨hp, hl⟩⟩

theorem checkOneChunk_plain (hp : p.position.rain = -1) : checkOneChunk args pol r d s p =
    { badPairs := if badStgclass args pol p then s.badPairs ++ [p] else s.badPairs
      stgpol := (hookChunkDupliStgpol args r d s.stgpol p).1
      total := hookChunkDupliTotalSize s.total p
      flaws := s.flaws ++ (hookChunkDupliStgpol args r d s.stgpol p).2 } := by
  rw [checkOneChunk, if_neg (not_not.mpr hp)]

theorem foldl_checkOneChunk (args : CheckArgs) (pol : StoragePolicy) (r d : Nat)
    (hl : ∀ p ∈ l, p.position.rain = -1) (s : DupliCheck) :
    let s' := l.foldl (checkOneChunk args pol r d) s
    s'.badPairs = s.badPairs ++ l.filter (badStgclass args pol) ∧
      s'.total = l.foldl hookChunkDupliTotalSize s.total ∧
      s'.flaws ++ hookEndDupliStgpol args r d s'.stgpol =
        s.flaws ++ stgpolRun args r d s.stgpol l := by
  induction l generalizing s with
  | nil => simp [stgpolRun]
  | cons p l ih =>
    have hp := hl p mem_cons_self
    obtain ⟨hb, ht, hf⟩ := ih (fun q hq => hl q (mem_cons_of_mem _ hq))
      (checkOneChunk args pol r d s p)
    simp only [foldl_cons]
    refine ⟨?_, ?_, ?_⟩
    · rw [hb, checkOneChunk_plain hp]
      by_cases hbad : badStgclass args pol p = true <;> simp [hbad]
    · rw [ht, checkOneChunk_plain hp]
    · rw [hf, checkOneChunk_plain hp, stgpolRun_cons, append_assoc]

end

/-- **複製の content の検査が欠陥を積まない条件。** -/
theorem checkDupliAlias_eq_nil_iff {header : Header} (hsize : 0 < header.size) (hne : l ≠ [])
    (hs : l.Pairwise (·.position.rank ≤ ·.position.rank)) :
    checkDupliAlias args pol header l r d = [] ↔
      (∀ p ∈ l, p.position.rain = -1) ∧ (∀ p ∈ l, badStgclass args pol p = false) ∧
      (∃ m, Blocks ChunkPair.block (GroupOk args r d) m l) ∧
      toInt64 (changeSum (·.position.rank) (·.chunk.size) none l) = header.size := by
  have hblock : l.Pairwise (·.block ≤ ·.block) := hs.imp fun h => Position.metaPos_le_of_rank h
  rw [← stgpolRun_init hne hblock]
  simp only [checkDupliAlias, if_pos hsize, append_eq_nil_iff, ite_eq_left_iff,
    ite_eq_right_iff, cons_ne_nil, imp_false, not_not, List.isEmpty_iff, ne_eq]
  by_cases hrain : ∀ p ∈ l, p.position.rain = -1
  · obtain ⟨hb, ht, hf⟩ := foldl_checkOneChunk args pol r d hrain .init
    generalize l.foldl (checkOneChunk args pol r d) .init = s at hb ht hf ⊢
    have hbad : s.badPairs = [] ↔ ∀ p ∈ l, badStgclass args pol p = false := by
      rw [hb]
      simp [DupliCheck.init]
    have htotal : s.total.sizeTotal =
        toInt64 (changeSum (·.position.rank) (·.chunk.size) none l) := by
      have h := foldl_totalSize l none 0 rfl
      rw [zero_add] at h
      rw [ht]
      exact h
    have hflaws : s.flaws = [] ∧ hookEndDupliStgpol args r d s.stgpol = [] ↔
        stgpolRun args r d ⟨none, []⟩ l = [] := by
      rw [← append_eq_nil_iff, hf]
      rfl
    rw [htotal]
    tauto
  · constructor
    · exact fun h => absurd (flaws_foldl h.1.1.1).2 hrain
    · exact fun h => absurd h.1 hrain

end Redcurrant.Meta2
