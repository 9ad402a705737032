import Mathlib.Data.Int.Interval
import Redcurrant.Meta2.CheckSound

/-!
# 検査は何を保証するか

検査に通った content の位置は 0 から続き、どの位置にも policy の数だけの chunk があるか（`Stored`）。
-/

namespace Redcurrant.Meta2

open Infra Metautils Sqliterepo List Function ChunkPair Position

/-! ## 検査の言うこと -/

/-- 下位の位置を持たない位置 -/
def plainPosition (k : Nat) : Position := ⟨k, false, -1⟩

/-- 位置 `k` にある相異なる chunk -/
def storedAt (pairs : List ChunkPair) (k : Nat) : List Chunk :=
  ((pairs.filter (·.position = plainPosition k)).map (·.chunk)).dedup

/-- 位置は `0` から `n - 1` で、どの位置にも大きさと hash の等しい `r` 個の chunk があり、大きさの和は `size` -/
def Stored (r : Nat) (size : Int) (pairs : List ChunkPair) : Prop :=
  ∃ (n : Nat) (sizeAt : Nat → Int) (hashAt : Nat → Bytes),
    (∀ q : Position, (∃ p ∈ pairs, p.position = q) ↔ ∃ k < n, q = plainPosition k) ∧
    (∀ k < n, (storedAt pairs k).length = r ∧
      ∀ c ∈ storedAt pairs k, c.size = sizeAt k ∧ c.hash = hashAt k) ∧
    ((range n).map sizeAt).sum = size

/-- 位置ごとに 1 つずつ取った大きさの和 -/
def sizePerPosition (pairs : List ChunkPair) : Int :=
  ((pairs.map fun p => (p.position, p.chunk.size)).dedup.map Prod.snd).sum

/-- 大きさの和が `gint64` に収まる。和は header の大きさが正なら求める。 -/
def Summable (size : Int) (pairs : List ChunkPair) : Prop :=
  0 < size → -2 ^ 63 ≤ sizePerPosition pairs ∧ sizePerPosition pairs < 2 ^ 63

/-- bean の列の骨組み。header は id、policy、大きさの符号で表す。 -/
structure Layout where
  target : Alias
  headers : List (Bytes × Option Bytes × Bool)
  contents : List Content
  chunkIds : List Bytes

def Header.sketch (h : Header) : Bytes × Option Bytes × Bool :=
  (h.id, h.policy, decide (0 < h.size))

/-- bean の列が 1 つの alias の骨組み `L` を持つ -/
structure HasLayout (L : Layout) (beans : List Bean) : Prop where
  aliases : aliasesIn beans = [L.target]
  headers : (headersIn beans).map Header.sketch = L.headers
  contents : contentsIn beans = L.contents
  chunks : (chunksIn beans).map (·.id) = L.chunkIds

/-- **検査の正しさ。** `r` 個の複製の alias の bean の列がすべての検査に通るなら、`Stored` が成り立つ。 -/
def CheckSound (r : Nat) (L : Layout) : Prop :=
  ∀ (args : CheckArgs) (beans : List Bean) (h : Header) (pol : StoragePolicy),
    HasLayout L beans → getHeader beans L.target.contentId = some h →
    h.policy.bind args.policies = some pol → pol.security = .dupli → pol.copies = r →
    Summable h.size (pairsOf beans h.id) → checkAliasBeansList args .all beans = none →
    Stored r h.size (pairsOf beans h.id)

namespace Layout

variable (L : Layout)

def header? : Option (Bytes × Option Bytes × Bool) := L.headers.find? (·.1 == L.target.contentId)

/-- chunk のある content の行 -/
def linked : List Content :=
  (L.contents.filter (·.contentId == L.target.contentId)).filter
    fun c => L.chunkIds.contains c.chunkId

/-- 検査が通す位置。下位の位置は無く、隙間なく続き、どれにも `r` 行ある。 -/
def Contiguous (r : Nat) : Prop :=
  (∀ c ∈ L.linked, c.place.rain = -1) ∧
    ∃ m, Blocks (fun c : Content => c.place.metaPos) (fun g => g.length = r) m L.linked

/-- 位置は 0 から始まり、印は無く、1 つの位置に同じ chunk は 2 度現れない -/
def FromZero : Prop :=
  (∃ c ∈ L.linked, c.place.metaPos = 0) ∧
    (∀ c ∈ L.linked, 0 ≤ c.place.metaPos ∧ c.place.parity = false) ∧
    L.linked.Pairwise fun c c' => c.place.metaPos = c'.place.metaPos → c.chunkId ≠ c'.chunkId

/-- 検査が見落とさない骨組み。header と policy と chunk があるなら、header の大きさは正で、位置は 0 から始まる。 -/
def Detected (r : Nat) : Prop :=
  ∀ (id name : Bytes) (positive : Bool), L.header? = some (id, some name, positive) →
    L.linked ≠ [] → positive = true ∧ (L.Contiguous r → L.FromZero)

end Layout

/-! ## 骨組みと組 -/

section

variable {L : Layout} {beans : List Bean}

theorem initChunkPair_eq_some {chunks : List Chunk} {c : Content} {p : ChunkPair}
    (h : initChunkPair chunks c = some p) :
    p.content = c ∧ chunks.find? (·.id == c.chunkId) = some p.chunk := by
  obtain ⟨k, hk, rfl⟩ := Option.map_eq_some_iff.mp h
  exact ⟨rfl, hk⟩

theorem initChunkPair_isSome (chunks : List Chunk) (c : Content) :
    (initChunkPair chunks c).isSome = (chunks.map (·.id)).contains c.chunkId := by
  rw [Bool.eq_iff_iff, initChunkPair, Option.isSome_map, find?_isSome, contains_iff_mem, mem_map]
  simp

theorem map_content_filterMap (chunks : List Chunk) : ∀ l : List Content,
    (l.filterMap (initChunkPair chunks)).map (·.content) =
      l.filter fun c => (chunks.map (·.id)).contains c.chunkId
  | [] => rfl
  | c :: l => by
    have ih := map_content_filterMap chunks l
    have hsome := initChunkPair_isSome chunks c
    cases hp : initChunkPair chunks c with
    | none =>
      rw [hp] at hsome
      rw [filterMap_cons_none hp, ih, filter_cons, ← hsome]
      rfl
    | some p =>
      rw [hp] at hsome
      rw [filterMap_cons_some hp, map_cons, ih, filter_cons, ← hsome, (initChunkPair_eq_some hp).1]
      rfl

theorem chunk_of_mem_pairsOf {id : Bytes} {p : ChunkPair} (h : p ∈ pairsOf beans id) :
    (chunksIn beans).find? (·.id == p.content.chunkId) = some p.chunk := by
  obtain ⟨c, -, hc⟩ := mem_filterMap.mp h
  obtain ⟨rfl, hfind⟩ := initChunkPair_eq_some hc
  exact hfind

theorem chunk_eq_iff {id : Bytes} {p q : ChunkPair} (hp : p ∈ pairsOf beans id)
    (hq : q ∈ pairsOf beans id) : p.chunk = q.chunk ↔ p.content.chunkId = q.content.chunkId := by
  have hp := chunk_of_mem_pairsOf hp
  have hq := chunk_of_mem_pairsOf hq
  constructor
  · intro h
    have hp' : p.chunk.id = p.content.chunkId := by simpa using find?_some hp
    have hq' : q.chunk.id = q.content.chunkId := by simpa using find?_some hq
    rw [← hp', h, hq']
  · intro h
    rw [h, hq] at hp
    exact (Option.some.inj hp).symm

section

variable (hL : HasLayout L beans)
include hL

theorem HasLayout.map_content : (pairsOf beans L.target.contentId).map (·.content) = L.linked := by
  rw [pairsOf, map_content_filterMap, hL.contents, hL.chunks, Layout.linked]

theorem HasLayout.contiguous_iff {r : Nat} :
    L.Contiguous r ↔ (∀ p ∈ pairsOf beans L.target.contentId, p.position.rain = -1) ∧
      ∃ m, Blocks block (·.length = r) m (pairsOf beans L.target.contentId) := by
  simp only [Layout.Contiguous, ← hL.map_content, blocks_map, length_map, mem_map,
    forall_exists_index, and_imp, forall_apply_eq_imp_iff₂]
  rfl

theorem HasLayout.fromZero_iff :
    L.FromZero ↔ (∃ p ∈ pairsOf beans L.target.contentId, p.block = 0) ∧
      (∀ p ∈ pairsOf beans L.target.contentId, 0 ≤ p.block ∧ p.position.parity = false) ∧
      (pairsOf beans L.target.contentId).Pairwise fun p q =>
        p.block = q.block → p.chunk ≠ q.chunk := by
  simp only [Layout.FromZero, ← hL.map_content, mem_map, forall_exists_index, and_imp,
    forall_apply_eq_imp_iff₂, exists_exists_and_eq_and, pairwise_map]
  refine and_congr Iff.rfl (and_congr Iff.rfl (List.Pairwise.iff_of_mem ?_))
  intro p q hp hq
  rw [ne_eq, ne_eq, chunk_eq_iff hp hq]
  rfl

theorem HasLayout.header? : L.header? = (getHeader beans L.target.contentId).map Header.sketch := by
  rw [Layout.header?, ← hL.headers, find?_map]
  rfl

end

theorem id_of_getHeader {id : Bytes} {h : Header} (hh : getHeader beans id = some h) :
    h.id = id := by
  simpa using find?_some hh

theorem Flaw.meaningful_all (f : Flaw) : f.meaningful .all = true := by
  rcases f with _ | _ | _ | _ | _ | _ | _ | f | _ | _ | _
  all_goals first | rfl | (cases f <;> rfl)

theorem checkAliasBeansList_eq_none_iff {args : CheckArgs} {a : Alias} {h : Header}
    {pol : StoragePolicy} (ha : aliasesIn beans = [a]) (hh : getHeader beans a.contentId = some h)
    (hpol : h.policy.bind args.policies = some pol) :
    checkAliasBeansList args .all beans = none ↔ pairsOf beans h.id ≠ [] ∧
        checkHeader args pol h (orderBy (·.position.rank) (pairsOf beans h.id)) = [] := by
  obtain ⟨name, hname, hpol⟩ := Option.bind_eq_some_iff.mp hpol
  have hload : loadHeaderCheck args beans a =
      .ok (h, pol, orderBy (·.position.rank) (pairsOf beans h.id)) := by
    simp [loadHeaderCheck, hh, loadStoragePolicy, hname, hpol]
  have hempty : (orderBy (·.position.rank) (pairsOf beans h.id)).isEmpty = true ↔
      pairsOf beans h.id = [] := by
    rw [List.isEmpty_iff, ← length_eq_zero_iff, (perm_orderBy _ _).length_eq, length_eq_zero_iff]
  by_cases hnil : pairsOf beans h.id = []
  · have hcheck : checkAlias args beans a = .error ⟨400, "No chunk/content"⟩ := by
      simp only [checkAlias, hload]
      rw [if_pos (hempty.mpr hnil)]
    simp [checkAliasBeansList, checkConsistency, ha, hcheck, Except.toBool, hnil]
  have hcheck : checkAlias args beans a =
      .ok (checkHeader args pol h (orderBy (·.position.rank) (pairsOf beans h.id))) := by
    simp only [checkAlias, hload]
    rw [if_neg (mt hempty.mp hnil)]
  simp [checkAliasBeansList, checkConsistency, ha, hcheck, Except.toBool, Except.toOption,
    Flaw.meaningful_all, hnil, eq_nil_iff_forall_not_mem]

end

/-! ## 位置ごとの大きさ -/

section

variable {pairs l : List ChunkPair}

/-- 位置 `q` の最初の chunk の値 -/
def valueAt {β : Type} (f : Chunk → β) (dflt : β) (pairs : List ChunkPair) (q : Position) : β :=
  ((pairs.find? (·.position = q)).map fun p => f p.chunk).getD dflt

theorem valueAt_eq {β : Type} {f : Chunk → β} {dflt : β}
    (hf : ∀ p ∈ pairs, ∀ q ∈ pairs, p.position = q.position → f p.chunk = f q.chunk)
    {p : ChunkPair} (hp : p ∈ pairs) : f p.chunk = valueAt f dflt pairs p.position := by
  rw [valueAt]
  cases hfind : pairs.find? (·.position = p.position) with
  | none =>
    have := find?_eq_none.mp hfind p hp
    simp at this
  | some q =>
    have hq : q.position = p.position := by simpa using find?_some hfind
    exact hf p hp q (mem_of_find?_eq_some hfind) hq.symm

variable (hsize : ∀ p ∈ pairs, ∀ q ∈ pairs, p.position = q.position → p.chunk.size = q.chunk.size)

include hsize

theorem sizePerPosition_eq :
    sizePerPosition pairs = ((pairs.map (·.position)).dedup.map (valueAt (·.size) 0 pairs)).sum := by
  have hmap : (pairs.map fun p => (p.position, p.chunk.size)) =
      (pairs.map (·.position)).map fun q => (q, valueAt (·.size) 0 pairs q) := by
    rw [map_map]
    exact map_congr_left fun p hp => Prod.ext rfl (valueAt_eq hsize hp)
  rw [sizePerPosition, hmap, dedup_map_of_injective fun _ _ h => (Prod.ext_iff.mp h).1, map_map]
  rfl

theorem changeSum_orderBy :
    changeSum (·.position.rank) (·.chunk.size) none (orderBy (·.position.rank) pairs) =
      sizePerPosition pairs := by
  have hperm := perm_orderBy (·.position.rank) pairs
  have hw : ∀ p ∈ orderBy (·.position.rank) pairs,
      p.chunk.size = (valueAt (·.size) 0 pairs ∘ ofRank) p.position.rank := by
    intro p hp
    rw [comp_apply, ofRank_rank]
    exact valueAt_eq hsize (hperm.mem_iff.mp hp)
  have hranks : (orderBy (·.position.rank) pairs).map (·.position.rank) =
      ((orderBy (·.position.rank) pairs).map (·.position)).map rank := by
    rw [map_map]
    rfl
  rw [changeSum_eq_sum (pairwise_orderBy _ _) hw, sizePerPosition_eq hsize, hranks,
    dedup_map_of_injective fun _ _ => rank_inj.mp, map_map]
  refine ((hperm.map _).dedup.map _).sum_eq.trans ?_
  refine congrArg sum (map_congr_left fun q _ => ?_)
  simp

end

/-! ## 通った列 -/

section

variable {pairs : List ChunkPair} {r : Nat} {m size : Int}

theorem ChunkPair.position_eq_iff {p : ChunkPair}
    (h : p.position.parity = false ∧ p.position.rain = -1) (k : Nat) :
    p.position = plainPosition k ↔ p.block = k := by
  obtain ⟨hparity, hrain⟩ := h
  rw [block]
  generalize p.position = place at hparity hrain
  obtain ⟨mt, parity, rain⟩ := place
  simp_all [plainPosition]

theorem exists_positions_range {ok : List ChunkPair → Prop} (hb : Blocks block ok m pairs)
    (hplain : ∀ p ∈ pairs, p.position.parity = false ∧ p.position.rain = -1)
    (hnonneg : ∀ p ∈ pairs, 0 ≤ p.block) (hzero : ∃ p ∈ pairs, p.block = 0) :
    ∃ n : Nat, ∀ q : Position, (∃ p ∈ pairs, p.position = q) ↔ ∃ k < n, q = plainPosition k := by
  have hm : m = 0 := by
    obtain ⟨p, hp, hp0⟩ := hzero
    rcases hb.2 p hp with h | ⟨q, hq, h⟩
    · omega
    · have := hnonneg q hq
      omega
  -- 最大の位置から `n` を決める
  cases htop : maxRow block pairs with
  | none =>
    obtain ⟨p, hp, -⟩ := hzero
    rw [maxRow_eq_none htop] at hp
    cases hp
  | some top =>
    have htop0 := hnonneg top (maxRow_mem htop)
    refine ⟨top.block.toNat + 1, fun q => ⟨?_, ?_⟩⟩
    · rintro ⟨p, hp, rfl⟩
      have hle := le_of_maxRow htop hp
      have h0 := hnonneg p hp
      exact ⟨p.block.toNat, by omega, (position_eq_iff (hplain p hp) _).mpr (by omega)⟩
    rintro ⟨k, hk, rfl⟩
    obtain ⟨b, hbm, hbk⟩ := hb.mem_of_le (top.block.toNat - k) (k := k) (maxRow_mem htop)
      (by omega) (by omega)
    exact ⟨b, hbm, (position_eq_iff (hplain b hbm) k).mpr hbk⟩

theorem perm_positions {n : Nat}
    (hrange : ∀ q : Position, (∃ p ∈ pairs, p.position = q) ↔ ∃ k < n, q = plainPosition k) :
    ((range n).map plainPosition).Perm (pairs.map (·.position)).dedup := by
  refine (perm_ext_iff_of_nodup ?_ (nodup_dedup _)).mpr fun q => ?_
  · refine nodup_range.map fun a b h => ?_
    simpa [plainPosition] using h
  · rw [mem_dedup, mem_map, mem_map, hrange]
    simp [eq_comm]

theorem nodup_chunks (hdistinct : pairs.Pairwise fun p q => p.block = q.block → p.chunk ≠ q.chunk)
    (k : Int) : ((pairs.filter (·.block = k)).map (·.chunk)).Nodup := by
  rw [List.Nodup, pairwise_map]
  refine (hdistinct.filter _).imp_of_mem ?_
  intro a b ha hb h
  refine h ?_
  rw [of_decide_eq_true (mem_filter.mp ha).2, of_decide_eq_true (mem_filter.mp hb).2]

theorem filter_position_eq (hplain : ∀ p ∈ pairs, p.position.parity = false ∧ p.position.rain = -1)
    (k : Nat) :
    pairs.filter (·.position = plainPosition k) = pairs.filter (·.block = (k : Int)) := by
  refine filter_congr fun p hp => ?_
  rw [decide_eq_decide, position_eq_iff (hplain p hp)]

theorem stored_of_blocks (hb : Blocks block (·.length = r) m pairs)
    (hplain : ∀ p ∈ pairs, p.position.parity = false ∧ p.position.rain = -1)
    (hnonneg : ∀ p ∈ pairs, 0 ≤ p.block) (hzero : ∃ p ∈ pairs, p.block = 0)
    (huniform : ∀ p ∈ pairs, ∀ q ∈ pairs, p.block = q.block →
      p.chunk.size = q.chunk.size ∧ p.chunk.hash = q.chunk.hash)
    (hdistinct : pairs.Pairwise fun p q => p.block = q.block → p.chunk ≠ q.chunk) :
    Stored r (sizePerPosition pairs) pairs := by
  obtain ⟨n, hrange⟩ := exists_positions_range hb hplain hnonneg hzero
  have hsame : ∀ p ∈ pairs, ∀ q ∈ pairs, p.position = q.position →
      p.chunk.size = q.chunk.size ∧ p.chunk.hash = q.chunk.hash := fun p hp q hq h =>
    huniform p hp q hq (congrArg metaPos h)
  refine ⟨n, fun k => valueAt (·.size) 0 pairs (plainPosition k),
    fun k => valueAt (·.hash) [] pairs (plainPosition k), hrange, fun k hk => ⟨?_, ?_⟩, ?_⟩
  · obtain ⟨p, hp, hpk⟩ := (hrange _).mpr ⟨k, hk, rfl⟩
    have hlen := hb.1 p hp
    rw [(position_eq_iff (hplain p hp) k).mp hpk] at hlen
    rw [storedAt, filter_position_eq hplain, (nodup_chunks hdistinct k).dedup, length_map, hlen]
  · intro c hc
    obtain ⟨q, hq, rfl⟩ := mem_map.mp (mem_dedup.mp hc)
    obtain ⟨hq, hqk⟩ := mem_filter.mp hq
    beta_reduce
    rw [← of_decide_eq_true hqk]
    exact ⟨valueAt_eq (fun a ha b hb h => (hsame a ha b hb h).1) hq,
      valueAt_eq (fun a ha b hb h => (hsame a ha b hb h).2) hq⟩
  · rw [sizePerPosition_eq fun a ha b hb h => (hsame a ha b hb h).1,
      ← ((perm_positions hrange).map _).sum_eq, map_map]
    rfl

theorem Stored.fromZero (h : Stored r size pairs) (hne : pairs ≠ [])
    (hcount : ∀ p ∈ pairs, (pairs.filter (·.block = p.block)).length = r) :
    (∃ p ∈ pairs, p.block = 0) ∧ (∀ p ∈ pairs, 0 ≤ p.block ∧ p.position.parity = false) ∧
      pairs.Pairwise fun p q => p.block = q.block → p.chunk ≠ q.chunk := by
  obtain ⟨n, sizeAt, hashAt, hrange, hat, -⟩ := h
  have hplain : ∀ p ∈ pairs, ∃ k < n, p.position = plainPosition k := fun p hp =>
    (hrange _).mp ⟨p, hp, rfl⟩
  refine ⟨?_, ?_, ?_⟩
  · obtain ⟨p, hp⟩ := exists_mem_of_ne_nil pairs hne
    obtain ⟨k, hk, -⟩ := hplain p hp
    obtain ⟨q, hq, he⟩ := (hrange (plainPosition 0)).mpr ⟨0, by omega, rfl⟩
    exact ⟨q, hq, by rw [block, he]; rfl⟩
  · intro p hp
    obtain ⟨k, -, he⟩ := hplain p hp
    rw [block, he]
    exact ⟨Int.natCast_nonneg k, rfl⟩
  rw [pairwise_iff_forall_sublist]
  intro p q hsub hblock heq
  have hp : p ∈ pairs := hsub.subset (by simp)
  obtain ⟨k, hk, he⟩ := hplain p hp
  have hplain' : ∀ x ∈ pairs, x.position.parity = false ∧ x.position.rain = -1 := by
    intro x hx
    obtain ⟨j, -, hj⟩ := hplain x hx
    rw [hj]
    exact ⟨rfl, rfl⟩
  have hblk : p.block = k := (position_eq_iff (hplain' p hp) k).mp he
  have hlen := (hat k hk).1
  rw [storedAt, filter_position_eq hplain', ← hblk] at hlen
  have hnodup : ((pairs.filter (·.block = p.block)).map (·.chunk)).Nodup := by
    rw [← dedup_eq_self]
    refine (dedup_sublist _).eq_of_length ?_
    rw [hlen, length_map, hcount p hp]
  have hsub' := (hsub.filter (·.block = p.block)).map (·.chunk)
  rw [filter_cons_of_pos (by simp), filter_cons_of_pos (by simp [hblock])] at hsub'
  have := hnodup.sublist hsub'
  simp [heq] at this

end

/-! ## 骨組みの条件 -/

theorem Layout.Detected.checkSound {L : Layout} {r : Nat} (h : L.Detected r) : CheckSound r L := by
  intro args beans hd pol hL hh hpol hdupli hcopies hfit hcheck
  obtain ⟨hne, hcheck⟩ := (checkAliasBeansList_eq_none_iff hL.aliases hh hpol).mp hcheck
  have hid := id_of_getHeader hh
  obtain ⟨name, hname, -⟩ := Option.bind_eq_some_iff.mp hpol
  have hheader : L.header? = some (hd.id, some name, decide (0 < hd.size)) := by
    rw [hL.header?, hh, Option.map_some, Header.sketch, hname]
  have hlinked : L.linked ≠ [] := by
    rw [← hL.map_content, ← hid]
    simpa using hne
  obtain ⟨hpositive, hfrom⟩ := h _ _ _ hheader hlinked
  have hsize : 0 < hd.size := of_decide_eq_true hpositive
  have hperm := perm_orderBy (·.position.rank) (pairsOf beans hd.id)
  have hne' : orderBy (·.position.rank) (pairsOf beans hd.id) ≠ [] := fun h =>
    hne (nil_perm.mp (h ▸ hperm))
  rw [checkHeader, hdupli] at hcheck
  obtain ⟨hrain, -, ⟨m, hb⟩, htotal⟩ :=
    (checkDupliAlias_eq_nil_iff hsize hne' (pairwise_orderBy _ _)).mp hcheck
  rw [hcopies] at hb
  -- 塊ごとの検査から数、大きさ、hash を取り出す
  have hlength : Blocks block (·.length = r) m (pairsOf beans hd.id) := by
    refine hb.mono hperm fun p hp hok => ?_
    rw [← (hperm.filter _).length_eq]
    exact hok.length (ne_nil_of_mem (mem_filter.mpr ⟨hp, decide_eq_true rfl⟩))
  have huniform : ∀ p ∈ pairsOf beans hd.id, ∀ q ∈ pairsOf beans hd.id, p.block = q.block →
      p.chunk.size = q.chunk.size ∧ p.chunk.hash = q.chunk.hash := by
    intro p hp q hq he
    have hp := hperm.mem_iff.mpr hp
    have hq := hperm.mem_iff.mpr hq
    exact (hb.1 p hp).uniform (mem_filter.mpr ⟨hp, decide_eq_true rfl⟩)
      (mem_filter.mpr ⟨hq, decide_eq_true he.symm⟩)
  have hrain : ∀ p ∈ pairsOf beans hd.id, p.position.rain = -1 := fun p hp =>
    hrain p (hperm.mem_iff.mpr hp)
  rw [hid] at hlength hrain
  obtain ⟨hzero, hplain, hdistinct⟩ :=
    hL.fromZero_iff.mp (hfrom (hL.contiguous_iff.mpr ⟨hrain, m, hlength⟩))
  rw [← hid] at hlength hrain hzero hplain hdistinct
  have hstored := stored_of_blocks hlength (fun p hp => ⟨(hplain p hp).2, hrain p hp⟩)
    (fun p hp => (hplain p hp).1) hzero huniform hdistinct
  rw [changeSum_orderBy fun p hp q hq h => (huniform p hp q hq (congrArg metaPos h)).1,
    toInt64_of_bounds (hfit hsize)] at htotal
  rwa [htotal] at hstored

/-! ## 骨組みを埋める -/

/-- 骨組み `L` を持つ bean の列。chunk の大きさは `chunkSize`、header の大きさは `size` か −1。 -/
def Layout.fill (L : Layout) (size chunkSize : Int) : List Bean :=
  .aliases L.target ::
    ((L.headers.map fun e => .contentsHeaders ⟨e.1, e.2.1, none, if e.2.2 then size else -1⟩) ++
    (L.contents.map .contents ++ L.chunkIds.map fun id => .chunks ⟨id, [], chunkSize, 0⟩))

/-- 距離も storage class も問わない `r` 個の複製の policy -/
def dupliPolicy (r : Nat) : StoragePolicy where
  storageClass := none
  security := .dupli
  params key := if key == ascii "nb_copy" then some (decNat r) else some (ascii "0")

/-- どの rawx も知っている環境 -/
def permissiveArgs (r : Nat) : CheckArgs where
  policies _ := some (dupliPolicy r)
  rawx _ := some ⟨[], [], ⟨.v4, [], 0, 0⟩, 0, []⟩
  rained _ _ := []

section

variable {L : Layout} {size chunkSize : Int} {r : Nat}

theorem headersIn_fill : headersIn (L.fill size chunkSize) =
    L.headers.map fun e => ⟨e.1, e.2.1, none, if e.2.2 then size else -1⟩ := by
  simp [headersIn, Layout.fill, Bean.header?, filterMap_cons, comp_def]

theorem contentsIn_fill : contentsIn (L.fill size chunkSize) = L.contents := by
  simp [contentsIn, Layout.fill, Bean.content?, filterMap_cons, comp_def]

theorem chunksIn_fill : chunksIn (L.fill size chunkSize) =
    L.chunkIds.map fun id => ⟨id, [], chunkSize, 0⟩ := by
  simp [chunksIn, Layout.fill, Bean.chunk?, filterMap_cons, comp_def]

theorem hasLayout_fill (hsize : 0 < size) : HasLayout L (L.fill size chunkSize) where
  aliases := by
    simp [aliasesIn, Layout.fill, Bean.alias?]
  headers := by
    rw [headersIn_fill, map_map]
    refine (map_congr_left fun e _ => ?_).trans (map_id _)
    obtain ⟨id, policy, positive⟩ := e
    cases positive <;> simp [Header.sketch, hsize]
  contents := contentsIn_fill
  chunks := by
    rw [chunksIn_fill, map_map]
    exact map_id _

theorem chunk_of_mem_fill {id : Bytes} {p : ChunkPair}
    (hp : p ∈ pairsOf (L.fill size chunkSize) id) :
    p.chunk.size = chunkSize ∧ p.chunk.hash = [] := by
  have hmem := mem_of_find?_eq_some (chunk_of_mem_pairsOf hp)
  rw [chunksIn_fill] at hmem
  obtain ⟨id', -, he⟩ := mem_map.mp hmem
  rw [← he]
  exact ⟨rfl, rfl⟩

theorem copies_dupliPolicy (hr : r < 2 ^ 32) : (dupliPolicy r).copies = r := by
  have hval : strtoll (decNat r) = r := by
    have h : strtoll (decNat r ++ []) = r := strtoll_decNat (by omega) (by simp)
    rwa [append_nil] at h
  have hcopies : (dupliPolicy r).copies = (Int.bmod r (2 ^ 32) % 2 ^ 32).toNat := by
    rw [← hval]
    rfl
  have hmod : Int.bmod r (2 ^ 32) % 2 ^ 32 = (r : Int) % 2 ^ 32 := Int.bmod_emod
  rw [hcopies, hmod]
  omega

theorem groupOk_permissive {g : List ChunkPair} (hne : g ≠ []) (hlen : g.length = r)
    (hg : ∀ p ∈ g, p.chunk.size = chunkSize ∧ p.chunk.hash = []) :
    GroupOk (permissiveArgs r) r 0 g := by
  cases g with
  | nil => exact absurd rfl hne
  | cons p l =>
    have hp := hg p mem_cons_self
    refine groupOk_cons_iff.mpr ⟨fun q hq => ?_, fun q hq => ?_, hlen, fun _ _ => rfl, ?_⟩
    · rw [(hg q (mem_cons_of_mem _ hq)).1, hp.1]
    · rw [(hg q (mem_cons_of_mem _ hq)).2, hp.2]
    · exact decide_eq_true (pairwise_of_forall fun _ _ => Nat.zero_le _)

theorem getHeader_fill : getHeader (L.fill size chunkSize) L.target.contentId =
    L.header?.map fun e => ⟨e.1, e.2.1, none, if e.2.2 then size else -1⟩ := by
  rw [getHeader, headersIn_fill, find?_map]
  rfl

theorem pairsOf_fill (size' : Int) (id : Bytes) :
    pairsOf (L.fill size chunkSize) id = pairsOf (L.fill size' chunkSize) id := by
  rw [pairsOf, pairsOf, contentsIn_fill, chunksIn_fill, contentsIn_fill, chunksIn_fill]

end

/-! ## 見落とす骨組み -/

theorem place_bounds (c : Content) : -2 ^ 31 ≤ c.place.metaPos ∧ c.place.metaPos < 2 ^ 31 := by
  rw [Content.place, parseChunkPosition]
  split
  · exact toInt32_bounds _
  · split
    · exact toInt32_bounds _
    · simp
  · simp

section

variable {pairs : List ChunkPair} {r : Nat} {size : Int}

theorem length_le_of_nodup {l : List Position} {lo hi : Int} (hn : l.Nodup)
    (h : ∀ q ∈ l, (lo ≤ q.metaPos ∧ q.metaPos < hi) ∧ q.rain = -1) :
    l.length ≤ (hi - lo).toNat * 2 := by
  have hsub : l.toFinset ⊆ (Finset.Ico lo hi ×ˢ Finset.univ).image
      fun x : Int × Bool => (⟨x.1, x.2, -1⟩ : Position) := by
    intro q hq
    obtain ⟨hbounds, hrain⟩ := h q (mem_toFinset.mp hq)
    refine Finset.mem_image.mpr ⟨(q.metaPos, q.parity), ?_, ?_⟩
    · exact Finset.mem_product.mpr ⟨Finset.mem_Ico.mpr hbounds, Finset.mem_univ _⟩
    · rw [← hrain]
  have hcard := (Finset.card_le_card hsub).trans Finset.card_image_le
  rwa [toFinset_card_of_nodup hn, Finset.card_product, Int.card_Ico, Finset.card_univ,
    Fintype.card_bool] at hcard

theorem length_positions_lt (hrain : ∀ p ∈ pairs, p.position.rain = -1) :
    (pairs.map (·.position)).dedup.length < 2 ^ 63 := by
  have hle : (pairs.map (·.position)).dedup.length ≤ ((2 ^ 31 : Int) - -2 ^ 31).toNat * 2 := by
    refine length_le_of_nodup (nodup_dedup _) fun q hq => ?_
    obtain ⟨p, hp, rfl⟩ := mem_map.mp (mem_dedup.mp hq)
    exact ⟨place_bounds p.content, hrain p hp⟩
  omega

theorem sizePerPosition_one (h : ∀ p ∈ pairs, p.chunk.size = 1) :
    sizePerPosition pairs = (pairs.map (·.position)).dedup.length := by
  have hsame : ∀ p ∈ pairs, ∀ q ∈ pairs, p.position = q.position → p.chunk.size = q.chunk.size :=
    fun p hp q hq _ => (h p hp).trans (h q hq).symm
  rw [sizePerPosition_eq hsame]
  have hone : (pairs.map (·.position)).dedup.map (valueAt (·.size) 0 pairs) =
      (pairs.map (·.position)).dedup.map fun _ => 1 := by
    refine map_congr_left fun q hq => ?_
    obtain ⟨p, hp, rfl⟩ := mem_map.mp (mem_dedup.mp hq)
    rw [← valueAt_eq hsame hp, h p hp]
  rw [hone, map_const', sum_replicate]
  simp

theorem checkDupliAlias_permissive {m : Int} {header : Header} (hne : pairs ≠ [])
    (hone : ∀ p ∈ pairs, p.chunk.size = 1 ∧ p.chunk.hash = [])
    (hrain : ∀ p ∈ pairs, p.position.rain = -1)
    (hb : Blocks block (·.length = r) m pairs)
    (hheader : header.size = (pairs.map (·.position)).dedup.length) :
    checkDupliAlias (permissiveArgs r) (dupliPolicy r) header
      (orderBy (·.position.rank) pairs) r 0 = [] := by
  have hperm := perm_orderBy (·.position.rank) pairs
  have hne' : orderBy (·.position.rank) pairs ≠ [] := fun h => hne (nil_perm.mp (h ▸ hperm))
  have hsize : 0 < header.size := by
    rw [hheader, Int.natCast_pos, length_pos_iff]
    simpa using hne
  have hsame : ∀ p ∈ pairs, ∀ q ∈ pairs, p.position = q.position → p.chunk.size = q.chunk.size :=
    fun p hp q hq _ => (hone p hp).1.trans (hone q hq).1.symm
  refine (checkDupliAlias_eq_nil_iff hsize hne' (pairwise_orderBy _ _)).mpr
    ⟨fun p hp => hrain p (hperm.mem_iff.mp hp), fun _ _ => rfl, ⟨m, ?_⟩, ?_⟩
  · refine hb.mono hperm.symm fun p hp hlen => ?_
    refine groupOk_permissive ?_ ?_ fun q hq => hone q (hperm.mem_iff.mp (mem_of_mem_filter hq))
    · exact ne_nil_of_mem (mem_filter.mpr ⟨hperm.mem_iff.mpr hp, decide_eq_true rfl⟩)
    · rw [(hperm.filter _).length_eq]
      exact hlen
  · rw [changeSum_orderBy hsame, sizePerPosition_one fun p hp => (hone p hp).1, hheader]
    have := length_positions_lt hrain
    exact toInt64_of_bounds (by omega)

theorem Stored.size_eq_zero (h : Stored r size pairs) (hzero : ∀ p ∈ pairs, p.chunk.size = 0) :
    size = 0 := by
  obtain ⟨n, sizeAt, hashAt, hrange, hat, rfl⟩ := h
  refine sum_eq_zero fun x hx => ?_
  obtain ⟨k, hk, rfl⟩ := mem_map.mp hx
  have hk := mem_range.mp hk
  obtain ⟨p, hp, hpk⟩ := (hrange _).mpr ⟨k, hk, rfl⟩
  have hmem : p.chunk ∈ storedAt pairs k :=
    mem_dedup.mpr (mem_map_of_mem (mem_filter.mpr ⟨hp, decide_eq_true hpk⟩))
  rw [← ((hat k hk).2 _ hmem).1, hzero p hp]

end

/-- 検査の正しい骨組みは見落とされない。そうでない骨組みは大きさを揃えれば検査に通ってしまう。 -/
theorem CheckSound.detected {L : Layout} {r : Nat} (hr : r < 2 ^ 32) (h : CheckSound r L) :
    L.Detected r := by
  intro id name positive hheader hlinked
  have hget : ∀ size chunkSize : Int, getHeader (L.fill size chunkSize) L.target.contentId =
      some ⟨id, some name, none, if positive then size else -1⟩ := by
    intro size chunkSize
    rw [getHeader_fill, hheader]
    rfl
  have hid : id = L.target.contentId := id_of_getHeader (hget 1 1)
  have hne : ∀ size chunkSize : Int, 0 < size →
      pairsOf (L.fill size chunkSize) L.target.contentId ≠ [] := by
    intro size chunkSize hsize hnil
    have hlayout : HasLayout L (L.fill size chunkSize) := hasLayout_fill hsize
    have hmap := hlayout.map_content
    rw [hnil] at hmap
    exact hlinked hmap.symm
  subst hid
  have hsound := fun (size chunkSize : Int) (hsize : 0 < size) =>
    h (permissiveArgs r) (L.fill size chunkSize) _ (dupliPolicy r) (hasLayout_fill hsize)
      (hget size chunkSize) rfl rfl (copies_dupliPolicy hr)
  have hpositive : positive = true := by
    -- header の大きさが正でなければ、何も調べられない
    by_contra hpos
    rw [Bool.not_eq_true] at hpos
    subst hpos
    have hstored := hsound 1 0 Int.one_pos (fun h0 => absurd h0 (by simp))
      ((checkAliasBeansList_eq_none_iff (hasLayout_fill Int.one_pos).aliases (hget 1 0) rfl).mpr
        ⟨hne 1 0 Int.one_pos, by simp [checkHeader, dupliPolicy, checkDupliAlias]⟩)
    have hzero := hstored.size_eq_zero fun p hp => (chunk_of_mem_fill hp).1
    simp at hzero
  subst hpositive
  refine ⟨rfl, fun hcont => ?_⟩
  -- 位置の数だけの大きさの content として埋める
  obtain ⟨pairs, hpairs⟩ : ∃ pairs, pairsOf (L.fill 1 1) L.target.contentId = pairs := ⟨_, rfl⟩
  have hone : ∀ p ∈ pairs, p.chunk.size = 1 ∧ p.chunk.hash = [] := fun p hp =>
    chunk_of_mem_fill (hpairs ▸ hp)
  have hnonempty : pairs ≠ [] := hpairs ▸ hne 1 1 Int.one_pos
  obtain ⟨hrain, m, hb⟩ := (hasLayout_fill Int.one_pos).contiguous_iff.mp hcont
  rw [hpairs] at hrain hb
  obtain ⟨n, hn⟩ : ∃ n : Int, n = (pairs.map (·.position)).dedup.length := ⟨_, rfl⟩
  have hpos : 0 < n := by
    rw [hn, Int.natCast_pos, length_pos_iff]
    simpa using hnonempty
  have hfill : pairsOf (L.fill n 1) L.target.contentId = pairs := by
    rw [pairsOf_fill 1, hpairs]
  have hfit : Summable n pairs := by
    intro _
    have := length_positions_lt hrain
    rw [sizePerPosition_one fun p hp => (hone p hp).1]
    omega
  have hcheck : checkAliasBeansList (permissiveArgs r) .all (L.fill n 1) = none := by
    refine (checkAliasBeansList_eq_none_iff (hasLayout_fill hpos).aliases (hget n 1) rfl).mpr ?_
    refine ⟨hne n 1 hpos, ?_⟩
    rw [hfill, checkHeader]
    exact (copies_dupliPolicy hr).symm ▸ checkDupliAlias_permissive hnonempty hone hrain hb hn
  have hstored := hsound n 1 hpos
  rw [hfill] at hstored
  have hfrom := (hstored hfit hcheck).fromZero hnonempty hb.1
  rw [← hfill] at hfrom
  exact (hasLayout_fill hpos).fromZero_iff.mpr hfrom

/-- **検査が正しいのは見落とされない骨組みのとき。** -/
theorem check_sound_iff (L : Layout) (r : UInt32) : CheckSound r.toNat L ↔ L.Detected r.toNat :=
  ⟨fun h => h.detected r.toNat_lt, fun h => h.checkSound⟩

def startGapBeans : List Bean :=
  [.aliases ⟨ascii "a", 1, 1, ascii "c", [], 0, false⟩,
    .contentsHeaders ⟨ascii "c", some (ascii "P"), none, 5⟩,
    .contents ⟨ascii "c", ascii "http://127.0.0.1:6000/K", ascii "1"⟩,
    .chunks ⟨ascii "http://127.0.0.1:6000/K", ascii "h", 5, 0⟩]

/-- **反例。** 位置 0 の無い content がすべての検査に通る。 -/
theorem start_gap_accepted : checkAliasBeansList (permissiveArgs 1) .all startGapBeans = none ∧
    ¬ Stored 1 5 (pairsOf startGapBeans (ascii "c")) := by
  refine ⟨by decide +kernel, ?_⟩
  intro h
  have hpairs : pairsOf startGapBeans (ascii "c") =
      [⟨⟨ascii "c", ascii "http://127.0.0.1:6000/K", ascii "1"⟩,
        ⟨ascii "http://127.0.0.1:6000/K", ascii "h", 5, 0⟩⟩] := by
    decide +kernel
  rw [hpairs] at h
  obtain ⟨⟨p, hp, hzero⟩, -⟩ := h.fromZero (by simp) (by decide +kernel)
  rw [mem_singleton.mp hp] at hzero
  exact absurd hzero (by decide +kernel)

end Redcurrant.Meta2
