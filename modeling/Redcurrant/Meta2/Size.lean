import Redcurrant.Meta2.Integrity
import Redcurrant.Meta2.Versions

/-!
# container の size

size は alias が指す header の size の合計のはずである（`getContainerSize true`）。行を書くと合計がどう変わるか。
-/

namespace Redcurrant.Meta2

open Infra Sqliterepo List RowTable

namespace Base

variable {env : Env} {b b' : Base} {a : Alias} {h : Header} {m now : Int} {url : Url}
variable {beans : List Bean} {uid : Bytes}

/-! ## 参照される header の合計 -/

def Referenced (b : Base) (id : Bytes) : Prop := ∃ a ∈ b.aliases.rows, a.contentId = id

instance (b : Base) (id : Bytes) : Decidable (b.Referenced id) :=
  inferInstanceAs (Decidable (∃ a ∈ b.aliases.rows, _))

theorem getContainerSize_true (b : Base) : b.getContainerSize true =
    ((b.headers.rows.filter fun h => decide (b.Referenced h.id)).map Header.size).sum := by
  have : (b.headers.rows.filter fun h => !true || b.aliases.rows.any (·.contentId = h.id)) =
      b.headers.rows.filter fun h => decide (b.Referenced h.id) := by
    refine filter_congr fun h _ => ?_
    rw [Bool.eq_iff_iff, decide_eq_true_eq]
    simp [Referenced]
  rw [getContainerSize, this]

theorem sum_filter_congr {l : List Header} {p q : Header → Bool} (h : ∀ x ∈ l, p x = q x) :
    ((l.filter p).map Header.size).sum = ((l.filter q).map Header.size).sum := by
  rw [filter_congr h]

theorem total_congr (hh : b'.headers = b.headers)
    (href : ∀ h ∈ b.headers.rows, b'.Referenced h.id ↔ b.Referenced h.id) :
    b'.getContainerSize true = b.getContainerSize true := by
  rw [getContainerSize_true, getContainerSize_true, hh]
  refine sum_filter_congr fun h hm => ?_
  rw [Bool.eq_iff_iff, decide_eq_true_eq, decide_eq_true_eq]
  exact href h hm

theorem sum_filter_ne {l : List Header} {p : Header → Bool} (hn : (l.map Header.id).Nodup)
    (hm : h ∈ l) (hp : p h = true) :
    ((l.filter fun x => p x && decide (x.id ≠ h.id)).map Header.size).sum =
      ((l.filter p).map Header.size).sum - h.size := by
  induction l with
  | nil => cases hm
  | cons x l ih =>
    rw [map_cons, nodup_cons] at hn
    obtain ⟨hx, hn⟩ := hn
    by_cases he : x.id = h.id
    · -- 残りに同じ id の header は無い
      have hxh : h = x := by
        rcases mem_cons.mp hm with rfl | hm
        · rfl
        · exact absurd (he ▸ mem_map_of_mem hm) hx
      subst hxh
      have hrest : (l.filter fun x => p x && decide (x.id ≠ h.id)) = l.filter p := by
        refine filter_congr fun y hy => ?_
        have : y.id ≠ h.id := fun hyx => hx (hyx ▸ mem_map_of_mem hy)
        simp [this]
      rw [filter_cons_of_neg (by simp), hrest, filter_cons_of_pos hp, map_cons, sum_cons]
      omega
    · have hm' : h ∈ l := by
        rcases mem_cons.mp hm with rfl | hm
        · exact absurd rfl he
        · exact hm
      have := ih hn hm'
      by_cases hpx : p x = true
      · rw [filter_cons_of_pos (by simp [hpx, he]), filter_cons_of_pos hpx,
          map_cons, map_cons, sum_cons, sum_cons]
        omega
      · rw [filter_cons_of_neg (by simp [hpx]), filter_cons_of_neg hpx, this]

/-! ## 不変条件 -/

/-- 記録された size が合計に等しい base -/
structure Sized (b : Base) : Prop where
  size : b.size = b.getContainerSize true
  image : ∀ a ∈ b.aliases.rows, ∃ h ∈ b.headers.rows, h.id = a.contentId
  oneHeader : (b.headers.rows.map Header.id).Nodup
  noSnapshot : b.snapshots.rows = []
  versions : ∀ a ∈ b.aliases.rows, minInt64 < a.version

theorem sized_init : init.Sized :=
  ⟨rfl, fun _ ha => (not_mem_nil ha).elim, nodup_nil, rfl, fun _ ha => (not_mem_nil ha).elim⟩

def FreshUid (b : Base) (uid : Bytes) : Prop := ∀ h ∈ b.headers.rows, h.id ≠ uid

theorem Sized.header_unique (hs : b.Sized) {h h' : Header} (hm : h ∈ b.headers.rows)
    (hm' : h' ∈ b.headers.rows) (he : h.id = h'.id) : h = h' :=
  inj_on_of_nodup_map hs.oneHeader hm hm' he

theorem Sized.headersOf_eq (hs : b.Sized) (ha : a ∈ b.aliases.rows) :
    ∃ h ∈ b.headers.rows, h.id = a.contentId ∧ b.headersOf a.contentId = [h] := by
  obtain ⟨h, hm, hi⟩ := hs.image a ha
  refine ⟨h, hm, hi, ?_⟩
  have hnd : (b.headersOf a.contentId).Nodup := (hs.oneHeader.of_map _).filter _
  have hin : h ∈ b.headersOf a.contentId := mem_headersOf.mpr ⟨hm, hi⟩
  have hall : ∀ x ∈ b.headersOf a.contentId, x = h := by
    intro x hx
    obtain ⟨hxm, hxi⟩ := mem_headersOf.mp hx
    exact hs.header_unique hxm hm (hxi.trans hi.symm)
  have hlen : (b.headersOf a.contentId).length ≤ [h].length :=
    hnd.length_le_of_subset fun x hx => mem_singleton.mpr (hall x hx)
  obtain ⟨x, hx⟩ := length_eq_one_iff.mp (le_antisymm hlen (length_pos_of_mem hin))
  rw [hx, mem_singleton] at hin
  rw [hx, hin]

/-! ## content を 1 つ書く -/

/-- 新しい content id の alias と header を 1 つずつ書いた base -/
structure Written (b : Base) (a : Alias) (h : Header) (b' : Base) : Prop where
  aliases : b'.aliases = b.aliases.replaceInto a
  headers : b'.headers = b.headers.replaceInto h
  snapshots : b'.snapshots = b.snapshots
  id : h.id = a.contentId
  fresh : b.FreshUid a.contentId

section

variable (w : b.Written a h b')
include w

theorem Written.headers_rows : b'.headers.rows = b.headers.rows ++ [h] := by
  rw [w.headers]
  refine rows_replaceInto_of_fresh _ fun x hx hc => ?_
  exact w.fresh x hx ((Header.id_eq_of_clash hc).symm.trans w.id)

theorem Written.referenced_new : b'.Referenced h.id := by
  refine ⟨a, ?_, w.id.symm⟩
  rw [w.aliases, mem_replaceInto]
  exact .inr rfl

theorem Written.referenced_old {x : Header} (hx : x ∈ b.headers.rows) :
    b'.Referenced x.id ↔ ∃ r ∈ b.aliases.rows, ¬ Clash Alias.pk a r ∧ r.contentId = x.id := by
  constructor
  · rintro ⟨r, hr, hc⟩
    rw [w.aliases, mem_replaceInto] at hr
    rcases hr with ⟨hr, hcl⟩ | rfl
    · exact ⟨r, hr, hcl, hc⟩
    · exact absurd hc.symm (w.fresh x hx)
  · rintro ⟨r, hr, hcl, hc⟩
    refine ⟨r, ?_, hc⟩
    rw [w.aliases, mem_replaceInto]
    exact .inl ⟨hr, hcl⟩

/-- 書いた後の合計は、参照されている前からの header と新しい header の合計 -/
theorem Written.total : b'.getContainerSize true =
    ((b.headers.rows.filter fun x => decide (b'.Referenced x.id)).map Header.size).sum +
      h.size := by
  have hnew : [h].filter (fun x => decide (b'.Referenced x.id)) = [h] := by
    simp [w.referenced_new]
  rw [getContainerSize_true, w.headers_rows, filter_append, map_append, sum_append,
    hnew, map_singleton, sum_singleton]

theorem Written.total_of_shared
    (hsh : ∀ r ∈ b.aliases.rows, Clash Alias.pk a r → ¬ b.LastReference r) :
    b'.getContainerSize true = b.getContainerSize true + h.size := by
  rw [w.total, getContainerSize_true]
  refine congrArg (· + h.size) (sum_filter_congr fun x hx => ?_)
  rw [Bool.eq_iff_iff, decide_eq_true_eq, decide_eq_true_eq, w.referenced_old hx]
  constructor
  · rintro ⟨r, hr, -, hc⟩
    exact ⟨r, hr, hc⟩
  · rintro ⟨r, hr, hc⟩
    by_cases hcl : Clash Alias.pk a r
    · -- ほかにも同じ content を指す行がある
      obtain ⟨q, hq, hqc, hne⟩ := exists_other_reference (hsh r hr hcl)
      refine ⟨q, hq, fun hcq => hne ?_, hqc.trans hc⟩
      exact b.aliases.eq_of_clash_left hq hr hcq hcl
    · exact ⟨r, hr, hcl, hc⟩

end

theorem Written.total_of_last (hs : b.Sized) (w : b.Written a h b') {r : Alias} {x : Header}
    (hr : r ∈ b.aliases.rows) (hcl : Clash Alias.pk a r) (hlast : b.LastReference r)
    (hx : x ∈ b.headers.rows) (hi : x.id = r.contentId) :
    b'.getContainerSize true = b.getContainerSize true + h.size - x.size := by
  have hfilter : (b.headers.rows.filter fun y => decide (b'.Referenced y.id)) =
      b.headers.rows.filter fun y => decide (b.Referenced y.id) && decide (y.id ≠ x.id) := by
    refine filter_congr fun y hy => ?_
    rw [Bool.eq_iff_iff, Bool.and_eq_true, decide_eq_true_eq, decide_eq_true_eq,
      decide_eq_true_eq, w.referenced_old hy]
    constructor
    · rintro ⟨q, hq, hcq, hc⟩
      refine ⟨⟨q, hq, hc⟩, fun he => hcq ?_⟩
      exact hlast q hq (hc.trans (he.trans hi)) ▸ hcl
    · rintro ⟨⟨q, hq, hc⟩, hne⟩
      refine ⟨q, hq, fun hcq => hne ?_, hc⟩
      rw [← hc, b.aliases.eq_of_clash_left hq hr hcq hcl, hi]
  rw [w.total, hfilter, sum_filter_ne hs.oneHeader hx (by simpa using ⟨r, hr, hi.symm⟩),
    ← getContainerSize_true]
  omega

theorem Written.sized (hs : b.Sized) (w : b.Written a h b') (hv : minInt64 < a.version)
    (hsize : b'.size = b'.getContainerSize true) : b'.Sized := by
  refine ⟨hsize, ?_, ?_, w.snapshots ▸ hs.noSnapshot, ?_⟩
  · intro r hr
    rw [w.headers_rows]
    rw [w.aliases, mem_replaceInto] at hr
    rcases hr with ⟨hr, -⟩ | rfl
    · obtain ⟨x, hx, hi⟩ := hs.image r hr
      exact ⟨x, mem_append_left _ hx, hi⟩
    · exact ⟨h, mem_append_right _ (mem_singleton_self h), w.id⟩
  · rw [w.headers_rows, map_append, nodup_append]
    refine ⟨hs.oneHeader, nodup_singleton _, ?_⟩
    intro x hx y hy he
    obtain ⟨z, hz, rfl⟩ := mem_map.mp hx
    rw [map_singleton, mem_singleton] at hy
    exact w.fresh z hz (he.trans (hy.trans w.id))
  · intro r hr
    rw [w.aliases, mem_replaceInto] at hr
    rcases hr with ⟨hr, -⟩ | rfl
    · exact hs.versions r hr
    · exact hv

/-! ## alias だけを書く -/

/-- header を変えずに alias を 1 つ書いた base -/
structure Aliased (b : Base) (a : Alias) (b' : Base) : Prop where
  aliases : b'.aliases = b.aliases.replaceInto a
  headers : b'.headers = b.headers
  snapshots : b'.snapshots = b.snapshots
  size : b'.size = b.size

theorem Aliased.sized (hs : b.Sized) (w : b.Aliased a b') (href : b.Referenced a.contentId)
    (hv : minInt64 < a.version)
    (hsh : ∀ r ∈ b.aliases.rows, Clash Alias.pk a r →
      r.contentId = a.contentId ∨ ¬ b.LastReference r) : b'.Sized := by
  have hmem : ∀ r, r ∈ b'.aliases.rows ↔ (r ∈ b.aliases.rows ∧ ¬ Clash Alias.pk a r) ∨ r = a := by
    intro r
    rw [w.aliases, mem_replaceInto]
  have htotal : b'.getContainerSize true = b.getContainerSize true := by
    refine total_congr w.headers fun x _ => ⟨?_, ?_⟩
    · rintro ⟨r, hr, hc⟩
      rcases (hmem r).mp hr with ⟨hr, -⟩ | rfl
      · exact ⟨r, hr, hc⟩
      · exact hc ▸ href
    rintro ⟨r, hr, hc⟩
    by_cases hcl : Clash Alias.pk a r
    · rcases hsh r hr hcl with he | hnl
      · exact ⟨a, (hmem a).mpr (.inr rfl), he.symm.trans hc⟩
      obtain ⟨q, hq, hqc, hne⟩ := exists_other_reference hnl
      refine ⟨q, (hmem q).mpr (.inl ⟨hq, fun hcq => hne ?_⟩), hqc.trans hc⟩
      exact b.aliases.eq_of_clash_left hq hr hcq hcl
    · exact ⟨r, (hmem r).mpr (.inl ⟨hr, hcl⟩), hc⟩
  refine ⟨w.size.trans (hs.size.trans htotal.symm), ?_, w.headers ▸ hs.oneHeader,
    w.snapshots ▸ hs.noSnapshot, ?_⟩
  · intro r hr
    rw [w.headers]
    rcases (hmem r).mp hr with ⟨hr, -⟩ | rfl
    · exact hs.image r hr
    obtain ⟨q, hq, hqc⟩ := href
    obtain ⟨x, hx, hi⟩ := hs.image q hq
    exact ⟨x, hx, hi.trans hqc⟩
  · intro r hr
    rcases (hmem r).mp hr with ⟨hr, -⟩ | rfl
    · exact hs.versions r hr
    · exact hv

end Base

end Redcurrant.Meta2
