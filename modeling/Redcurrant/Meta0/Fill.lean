import Redcurrant.Meta0.Select

/-!
# 空の meta0 を埋めた結果

`meta0_assign_fill` が成功すると、どの prefix も求めた数の異なる URL を持つ（`Filled`）。
-/

namespace Redcurrant.Meta0

open Infra Metautils Sqliterepo List Option

/-- どの prefix も求めた数の異なる URL を持つ base -/
structure Filled (services : List ServiceInfo) (replicas : Nat) (nodist : Bool) (b : Meta0Base) :
    Prop where
  length : ∀ p < prefixCount, (b.urls p).length = replicas
  nodup : ∀ p < prefixCount, (b.urls p).Nodup
  listed : ∀ p < prefixCount, ∀ u ∈ b.urls p, ∃ s ∈ services, u = addrText s.addr
  hosts : nodist = false → ∀ p < prefixCount, ((b.urls p).map l4AddressHost).Nodup

/-- `meta1_ref` にはどの META1 の行もあり、その数は受け持つ prefix の数である -/
def ScoresSaved (services : List ServiceInfo) (b : Meta0Base) : Prop :=
  ∀ s ∈ services, ∃ rows, b.meta1Ref = some rows ∧ (∃ r ∈ rows, r.1 = addrText s.addr) ∧
    ∀ r ∈ rows, r.1 = addrText s.addr → r.2.2 = holders prefixCount b.urls r.1

/-- 埋める途中。`c` は prefix ごとに処理した回数。 -/
structure FillInv (services : List ServiceInfo) (nodist : Bool) (c : Nat → Nat) (σ : AssignState) :
    Prop where
  records : Records services σ
  working : ∀ i ∈ σ.working, i < σ.count
  length : ∀ p, (σ.array p).length = c p
  nodup : ∀ p, (σ.array p).Nodup
  listed : ∀ p, ∀ u ∈ σ.array p, ∃ s ∈ services, u = addrText s.addr
  hosts : nodist = false → ∀ p, ((σ.array p).map l4AddressHost).Nodup
  score : ∀ i < σ.count, (σ.meta1 i).freed = false →
    (σ.meta1 i).score = occ prefixCount σ.array (σ.meta1 i).addr

section

variable {services : Meta1List} {nodist : Bool} {c : Nat → Nat} {σ σ' : AssignState} {idx : Nat}

theorem setAt_increaseScore {meta1 : Nat → AssignMeta1} {j : Nat} (i : Nat) :
    (setAt meta1 j (meta1 j).increaseScore i).addr = (meta1 i).addr ∧
      (setAt meta1 j (meta1 j).increaseScore i).freed = (meta1 i).freed := by
  by_cases hi : i = j
  · rw [hi, setAt_same]
    exact ⟨rfl, rfl⟩
  · rw [setAt_of_ne _ _ hi]
    exact ⟨rfl, rfl⟩

theorem fillStep_eq_ok (h : fillStep nodist σ idx = some (.ok σ')) :
    ∃ j ∈ σ.working, (σ.meta1 j).freed = false ∧
      Accepted (σ.array idx) none (σ.meta1 j).addr nodist ∧
      σ' = { σ with
        working := sortByScore σ.meta1 σ.working
        array := arrayAdd σ.array idx (σ.meta1 j).addr
        meta1 := setAt σ.meta1 j (σ.meta1 j).increaseScore } := by
  obtain ⟨d, hd, h⟩ := map_eq_some_iff.mp h
  cases d with
  | none => cases h
  | some j =>
    obtain ⟨hmem, hlive, -, hacc⟩ := selectDestAssignM1_eq_some hd
    rw [Except.ok.injEq] at h
    exact ⟨j, mem_sortByScore.mp hmem, hlive, hacc, h.symm⟩

/-- **1 つの prefix に META1 を加えても、正しさは保たれる。** -/
theorem FillInv.step (hinv : FillInv services.services nodist c σ) (hidx : idx < prefixCount)
    (h : fillStep nodist σ idx = some (.ok σ')) :
    FillInv services.services nodist (fun p => c p + if p = idx then 1 else 0) σ' := by
  obtain ⟨j, hj, hlive, hacc, rfl⟩ := fillStep_eq_ok h
  have hcount := hinv.working j hj
  obtain ⟨s, hs, haddr⟩ := hinv.records.mem hcount
  have hnew : (σ.meta1 j).addr ∉ σ.array idx := hacc.notMem rfl
  have hmeta : ∀ i, (setAt σ.meta1 j (σ.meta1 j).increaseScore i).addr = (σ.meta1 i).addr ∧
      (setAt σ.meta1 j (σ.meta1 j).increaseScore i).freed = (σ.meta1 i).freed := setAt_increaseScore
  -- 加えた prefix とそれ以外に分ける
  have hcases : ∀ {P : Nat → List Bytes → Prop}, P idx (σ.array idx ++ [(σ.meta1 j).addr]) →
      (∀ p, p ≠ idx → P p (σ.array p)) → ∀ p, P p (arrayAdd σ.array idx (σ.meta1 j).addr p) := by
    intro P hnew hrest p
    by_cases hp : p = idx
    · rw [hp, arrayAdd, setAt_same]
      exact hnew
    · rw [arrayAdd, setAt_of_ne _ _ hp]
      exact hrest p hp
  constructor
  case records => exact hinv.records.congr rfl (fun i => (hmeta i).1) fun i => (hmeta i).2
  case working => exact fun i hi => hinv.working i (mem_sortByScore.mp hi)
  case length =>
    refine hcases (P := fun p l => l.length = c p + if p = idx then 1 else 0) ?_ fun p hp => ?_
    · rw [length_append, hinv.length, if_pos rfl, length_singleton]
    · rw [hinv.length, if_neg hp]
      rfl
  case nodup =>
    refine hcases (P := fun _ l => l.Nodup) ?_ fun p _ => hinv.nodup p
    exact nodup_append.mpr ⟨hinv.nodup idx, nodup_singleton _,
      fun a ha b hb heq => hnew (mem_singleton.mp hb ▸ heq ▸ ha)⟩
  case listed =>
    refine hcases (P := fun _ l => ∀ u ∈ l, ∃ s ∈ services.services, u = addrText s.addr) ?_
      fun p _ => hinv.listed p
    intro u hu
    rcases mem_append.mp hu with hu | hu
    · exact hinv.listed idx u hu
    · exact ⟨s, hs, (mem_singleton.mp hu).trans haddr⟩
  case hosts =>
    intro hnodist
    refine hcases (P := fun _ l => (l.map l4AddressHost).Nodup) ?_ fun p _ => hinv.hosts hnodist p
    obtain ⟨dhost, hdhost⟩ := exists_l4AddressHost (services.wf s hs)
    rw [← haddr] at hdhost
    rw [map_append, map_singleton]
    refine nodup_append.mpr ⟨hinv.hosts hnodist idx, nodup_singleton _, ?_⟩
    rintro a ha b hb rfl
    obtain ⟨u, hu, hhost⟩ := mem_map.mp ha
    rw [mem_singleton.mp hb, hdhost] at hhost
    have hclash := (hacc u hu rfl).2 rfl hnodist dhost dhost hhost hdhost
    rw [startsCase_self] at hclash
    cases hclash
  case score =>
    intro i hi hfreed
    rw [(hmeta i).2] at hfreed
    have hocc := occ_setAt (n := prefixCount) (a := σ.array) (y := (σ.meta1 i).addr) hidx
      (σ.array idx ++ [(σ.meta1 j).addr])
    have hscore := hinv.score i hi hfreed
    rw [count_append, count_singleton] at hocc
    simp only [(hmeta i).1]
    change _ = occ prefixCount (setAt σ.array idx (σ.array idx ++ [(σ.meta1 j).addr])) _
    by_cases hij : i = j
    · subst hij
      rw [setAt_same]
      simp only [beq_self_eq_true, if_true] at hocc
      change (σ.meta1 i).score + 1 = _
      omega
    · have hne : (σ.meta1 j).addr ≠ (σ.meta1 i).addr :=
        fun heq => hij (hinv.records.live hi hcount hfreed hlive heq.symm)
      rw [setAt_of_ne _ _ hij]
      simp only [beq_iff_eq, hne, if_false] at hocc
      omega

theorem FillInv.loop : ∀ {l : List Nat} {c : Nat → Nat} {σ : AssignState}, (∀ p ∈ l, p < prefixCount) →
    FillInv services.services nodist c σ → fillLoop nodist l σ = some (.ok σ') →
    FillInv services.services nodist (fun p => c p + l.count p) σ'
  | [], c, σ, _, hinv, h => by
    cases h
    simpa using hinv
  | idx :: rest, c, σ, hl, hinv, h => by
    obtain ⟨r, hr, h⟩ := bind_eq_some_iff.mp h
    cases r with
    | error e => simp at h
    | ok σ1 =>
      have hstep := hinv.step (hl idx mem_cons_self) hr
      have hrest := hstep.loop (fun p hp => hl p (mem_cons_of_mem _ hp)) h
      have hc : (fun p => c p + (idx :: rest).count p) =
          fun p => c p + (if p = idx then 1 else 0) + rest.count p := by
        funext p
        by_cases hp : p = idx
        · rw [hp, count_cons_self, if_pos rfl]
          omega
        · rw [count_cons_of_ne (Ne.symm hp), if_neg hp]
          omega
      rw [hc]
      exact hrest

end

theorem mem_fillOrder {replicas p : Nat} (h : p ∈ fillOrder replicas) : p < prefixCount := by
  obtain ⟨l, hl, hp⟩ := mem_flatten.mp h
  rw [eq_of_mem_replicate hl] at hp
  exact mem_range.mp hp

theorem count_fillOrder (replicas : Nat) {p : Nat} (hp : p < prefixCount) :
    (fillOrder replicas).count p = replicas := by
  have hone : (List.range prefixCount).count p = 1 :=
    count_eq_one_of_mem nodup_range (mem_range.mpr hp)
  induction replicas with
  | zero => rfl
  | succ n ih =>
    rw [fillOrder, replicate_succ, flatten_cons, count_append, hone]
    change 1 + (fillOrder n).count p = n + 1
    omega

theorem score_initRecords_nil (refs : List (Bytes × Bool)) : ∀ (services : List ServiceInfo),
    ∀ a ∈ (initRecords refs [] services).1, a.score = 0
  | [] => by simp [initRecords]
  | s :: rest => by
    exact forall_mem_cons.mpr ⟨rfl, score_initRecords_nil refs rest⟩

theorem arrayToList_empty (errno : Bytes → Bool) : arrayToList errno (fun _ => []) = [] := by
  have hpairs : arrayPairs (fun _ => []) = [] := by simp [arrayPairs]
  rw [arrayToList, hpairs]
  simp [pairsToList]

theorem fillInv_initAssign {errno : Bytes → Bool} {refs : List (Bytes × Bool)}
    {services : Meta1List} {replicas : Nat} {nodist : Bool} {σ : AssignState}
    (h : initAssign errno refs (fun _ => []) services.services replicas = .ok σ) :
    FillInv services.services nodist (fun _ => 0) σ := by
  unfold initAssign at h
  split at h
  · cases h
  split at h
  · cases h
  rw [arrayToList_empty] at h
  simp only at h
  split at h
  · cases h
  cases h
  have hscore := score_initRecords_nil refs services.services
  refine ⟨records_startState services refs [] _ _, fun i hi => (mem_workingOf hi).1,
    fun _ => rfl, fun _ => .nil, by simp [startState], fun _ _ => by simp [startState], ?_⟩
  intro i hi _
  have hzero : (recordAt (initRecords refs [] services.services).1 i).score = 0 :=
    hscore _ (recordAt_mem hi)
  change (recordAt (initRecords refs [] services.services).1 i).score = _
  rw [hzero]
  exact (occ_eq_zero_iff.mpr fun p _ => not_mem_nil).symm

/-! ## 書き込み -/

theorem assignPrefixes_ok : ∀ {qs rows rows' : List (Nat × Bytes)},
    assignPrefixes qs rows = .ok rows' → rows' = rows ++ qs
  | [], rows, rows', h => by
    cases h
    exact (append_nil rows).symm
  | q :: qs, rows, rows', h => by
    rw [assignPrefixes] at h
    split at h
    · cases h
    · rw [assignPrefixes_ok h, append_assoc, singleton_append]

theorem assignPrefixes_nodup : ∀ {qs rows : List (Nat × Bytes)}, (rows ++ qs).Nodup →
    assignPrefixes qs rows = .ok (rows ++ qs)
  | [], rows, _ => by rw [append_nil]; rfl
  | q :: qs, rows, h => by
    have hq : q ∉ rows := fun hq => (nodup_append.mp h).2.2 q hq q mem_cons_self rfl
    rw [assignPrefixes, if_neg (by simpa using hq), assignPrefixes_nodup (by simpa using h),
      append_assoc, singleton_append]

/-- **書いた行を読み直すと、書いた表になる。** -/
theorem filterMap_arrayPairs (a : PrefixArray) {p : Nat} (hp : p < prefixCount) :
    ((arrayPairs a).filterMap fun q => if q.1 = p then some q.2 else none) = a p := by
  have hone : ∀ k, (((a k).map fun u => (k, u)).filterMap fun q : Nat × Bytes =>
      if q.1 = p then some q.2 else none) = if k = p then a k else [] := by
    intro k
    rw [filterMap_map]
    by_cases hk : k = p <;> simp [hk]
  have hgen : ∀ n, (((range n).flatMap fun p => (a p).map fun u => (p, u)).filterMap fun q =>
      if q.1 = p then some q.2 else none) = if p < n then a p else [] := by
    intro n
    induction n with
    | zero => rfl
    | succ n ih =>
      rw [range_succ, flatMap_append, filterMap_append, ih, flatMap_singleton, hone]
      by_cases hn : n = p
      · subst hn
        simp
      · rw [if_neg hn, append_nil]
        exact if_congr (by omega) rfl rfl
  rw [arrayPairs, hgen, if_pos hp]

theorem nodup_arrayPairs {a : PrefixArray} (h : ∀ p, (a p).Nodup) : (arrayPairs a).Nodup := by
  refine nodup_flatMap.mpr ⟨fun p _ => (h p).map fun u v huv => (Prod.mk.inj huv).2, ?_⟩
  refine nodup_range.imp fun {p q} hne => ?_
  rintro ⟨k, u⟩ hp hq
  obtain ⟨_, -, he⟩ := mem_map.mp hp
  obtain ⟨_, -, he'⟩ := mem_map.mp hq
  exact hne ((Prod.mk.inj he).1.trans (Prod.mk.inj he').1.symm)

/-- **REPLACE の列の後の行は、書いた行と、鍵を書かれていない前の行である。** -/
theorem mem_foldl_replaceRef : ∀ {refs rows : List (Bytes × Bool × Nat)} {r : Bytes × Bool × Nat},
    refs.Pairwise (fun r q => r.1 ≠ q.1) →
    (r ∈ refs.foldl replaceRef rows ↔ r ∈ refs ∨ r ∈ rows ∧ ∀ q ∈ refs, q.1 ≠ r.1)
  | [], rows, r, _ => by simp
  | q :: refs, rows, r, h => by
    obtain ⟨hq, h⟩ := pairwise_cons.mp h
    rw [foldl_cons, mem_foldl_replaceRef h, replaceRef, mem_append, mem_filter, mem_singleton,
      forall_mem_cons, mem_cons, decide_eq_true_eq]
    constructor
    · rintro (hr | ⟨⟨hr, hne⟩ | rfl, hrest⟩)
      · exact .inl (.inr hr)
      · exact .inr ⟨hr, hne.symm, hrest⟩
      · exact .inl (.inl rfl)
    · rintro ((rfl | hr) | ⟨hr, hne, hrest⟩)
      · exact .inr ⟨.inr rfl, fun q hmem => (hq q hmem).symm⟩
      · exact .inl hr
      · exact .inr ⟨.inl ⟨hr, hne.symm⟩, hrest⟩

section

variable {services : Meta1List} {nodist : Bool} {c : Nat → Nat} {σ : AssignState} {b b' : Meta0Base}

theorem FillInv.pairwise_ref (hinv : FillInv services.services nodist c σ) :
    (updatedMeta1ref σ).Pairwise fun r q => r.1 ≠ q.1 := by
  rw [updatedMeta1ref, pairwise_map]
  refine (nodup_range.filter _).imp_of_mem fun {i j} hi hj hne he => hne ?_
  obtain ⟨hi, hilive⟩ := mem_filter.mp hi
  obtain ⟨hj, hjlive⟩ := mem_filter.mp hj
  exact hinv.records.live (mem_range.mp hi) (mem_range.mp hj) (by simpa using hilive)
    (by simpa using hjlive) he

theorem FillInv.mem_ref (hinv : FillInv services.services nodist c σ) {s : ServiceInfo}
    (hs : s ∈ services.services) : ∃ r ∈ updatedMeta1ref σ, r.1 = addrText s.addr := by
  obtain ⟨i, hi, rfl⟩ := mem_iff_getElem.mp hs
  obtain ⟨j, hj, hlive, haddr⟩ := hinv.records.exists_live i (hinv.records.count_eq ▸ hi)
  refine ⟨_, mem_map_of_mem (mem_filter.mpr ⟨mem_range.mpr hj, ?_⟩), ?_⟩
  · simp [hlive]
  · simp only [haddr, hinv.records.addr_eq, List.getElem?_eq_getElem hi]
    rfl

theorem FillInv.score_ref (hinv : FillInv services.services nodist c σ) {r : Bytes × Bool × Nat}
    (hr : r ∈ updatedMeta1ref σ) : r.2.2 = holders prefixCount σ.array r.1 := by
  obtain ⟨i, hi, rfl⟩ := mem_map.mp hr
  obtain ⟨hrange, hlive⟩ := mem_filter.mp hi
  rw [← occ_eq_holders fun p _ => hinv.nodup p]
  exact hinv.score i (mem_range.mp hrange) (by simpa using hlive)

/-- **score が書かれるのは `meta1_ref` の table があるときである。** -/
theorem FillInv.scoresSaved_iff (hinv : FillInv services.services nodist c σ)
    (hne : services.services ≠ []) (harray : ∀ p < prefixCount, b'.urls p = σ.array p)
    (href : b'.meta1Ref = recordMeta1ref (updatedMeta1ref σ) b.meta1Ref) :
    ScoresSaved services.services b' ↔ b.meta1Ref.isSome := by
  constructor
  · intro h
    obtain ⟨s, rest, hs⟩ := exists_cons_of_ne_nil hne
    obtain ⟨rows, hrows, -⟩ := h s (hs ▸ mem_cons_self)
    rw [href, recordMeta1ref, map_eq_some_iff] at hrows
    obtain ⟨old, hold, -⟩ := hrows
    rw [hold]
    rfl
  · intro h s hs
    obtain ⟨old, hold⟩ := isSome_iff_exists.mp h
    obtain ⟨r₀, hr₀, haddr⟩ := hinv.mem_ref hs
    refine ⟨_, by rw [href, hold]; rfl, ⟨r₀, ?_, haddr⟩, fun r hr he => ?_⟩
    · exact (mem_foldl_replaceRef hinv.pairwise_ref).mpr (.inl hr₀)
    have hholders : holders prefixCount b'.urls r.1 = holders prefixCount σ.array r.1 :=
      countP_congr fun p hp => by rw [harray p (mem_range.mp hp)]
    rw [hholders]
    rcases (mem_foldl_replaceRef hinv.pairwise_ref).mp hr with hr | ⟨-, hno⟩
    · exact hinv.score_ref hr
    · exact absurd (haddr.trans he.symm) (hno r₀ hr₀)

end

theorem urls_of_empty {b : Meta0Base} (hb : b.meta1 = []) : b.urls = fun _ => [] := by
  funext p
  rw [Meta0Base.urls, hb]
  rfl

/-- **`meta0_assign_fill` が空の meta0 で成功すると、どの prefix も埋まり、score が正しく書かれるのは `meta1_ref` の table が
あるときに限る。** -/
theorem assignFill_filled (errno : Bytes → Bool) (b b' : Meta0Base) (services : Meta1List)
    (replicas : Nat) (nodist early : Bool) (hb : b.meta1 = [])
    (h : assignFill errno b services.services replicas nodist early = some (.ok b')) :
    Filled services.services replicas nodist b' ∧
      (ScoresSaved services.services b' ↔ b.meta1Ref.isSome) := by
  unfold assignFill at h
  rw [urls_of_empty hb] at h
  split at h
  · simp at h
  rename_i σ₀ hinit
  have hne : services.services ≠ [] := by
    intro he
    rw [he] at hinit
    cases replicas <;> simp [initAssign] at hinit
  split at h
  · simp at h
  obtain ⟨r, hr, h⟩ := map_eq_some_iff.mp h
  cases r with
  | error e => cases h
  | ok σ =>
    simp only [Except.bind, backendAssign, hb] at h
    have hstart : FillInv services.services nodist (fun _ => 0) σ₀ := fillInv_initAssign hinit
    have hinv := hstart.loop (fun p hp => mem_fillOrder hp) hr
    cases hrows : assignPrefixes (arrayPairs σ.array) [] with
    | error e =>
      rw [hrows] at h
      cases h
    | ok rows =>
      rw [hrows] at h
      cases h
      have harray : ∀ p < prefixCount, Meta0Base.urls
          ⟨rows, recordMeta1ref (updatedMeta1ref σ) b.meta1Ref⟩ p = σ.array p := by
        intro p hp
        have hpairs := assignPrefixes_ok hrows
        rw [nil_append] at hpairs
        rw [Meta0Base.urls, ← filterMap_arrayPairs σ.array hp, ← hpairs]
      refine ⟨⟨fun p hp => ?_, fun p hp => ?_, fun p hp => ?_, fun hd p hp => ?_⟩,
        hinv.scoresSaved_iff hne harray rfl⟩ <;> rw [harray p hp]
      · rw [hinv.length, count_fillOrder replicas hp, Nat.zero_add]
      · exact hinv.nodup p
      · exact hinv.listed p
      · exact hinv.hosts hd p

/-! ## 2 つの META1 -/

def pairMeta1 : Meta1List where
  services := [⟨ascii "NS", ascii "meta1", ⟨.v4, [10, 0, 0, 1], 6000, 0⟩, 50, []⟩,
    ⟨ascii "NS", ascii "meta1", ⟨.v4, [10, 0, 0, 2], 6000, 0⟩, 50, []⟩]
  wf := by decide

def firstUrl : Bytes := ascii "10.0.0.1:6000"
def secondUrl : Bytes := ascii "10.0.0.2:6000"

/-- 2 つの META1 がそろっている状態 -/
structure PairReady (σ : AssignState) : Prop where
  working : σ.working.Perm [0, 1]
  first : (σ.meta1 0).addr = firstUrl ∧ (σ.meta1 0).freed = false
  second : (σ.meta1 1).addr = secondUrl ∧ (σ.meta1 1).freed = false

/-- 列 `l` の残る prefix の URL は 2 つの META1 のもので、残りを加えると 2 つになる -/
def PairRoom (l : List Nat) (σ : AssignState) : Prop :=
  ∀ p ∈ l, (σ.array p).length + l.count p = 2 ∧ ∀ u ∈ σ.array p, u = firstUrl ∨ u = secondUrl

theorem sortByScore_pairwise (meta1 : Nat → AssignMeta1) (l : List Nat) :
    (sortByScore meta1 l).Pairwise fun i k => (meta1 k).score ≤ (meta1 i).score := by
  refine (pairwise_mergeSort (fun a b c hab hbc => ?_) (fun a b => ?_) l).imp of_decide_eq_true
  · exact decide_eq_true ((of_decide_eq_true hbc).trans (of_decide_eq_true hab))
  · simpa using Nat.le_total (meta1 b).score (meta1 a).score

theorem exists_free {urls : List Bytes} (hlen : urls.length ≤ 1)
    (hurls : ∀ u ∈ urls, u = firstUrl ∨ u = secondUrl) :
    Free urls none firstUrl false ∨ Free urls none secondUrl false := by
  match urls, hlen with
  | [], _ => exact .inl (.inl rfl)
  | [u], _ =>
    rcases hurls u mem_cons_self with rfl | rfl
    · refine .inr (.inr ⟨forall_mem_singleton.mpr ?_, firstUrl, mem_cons_self, ?_⟩) <;>
        decide +kernel
    · refine .inl (.inr ⟨forall_mem_singleton.mpr ?_, secondUrl, mem_cons_self, ?_⟩) <;>
        decide +kernel

theorem fillStep_pair {σ : AssignState} {idx : Nat} (hσ : PairReady σ)
    (hlen : (σ.array idx).length ≤ 1) (hurls : ∀ u ∈ σ.array idx, u = firstUrl ∨ u = secondUrl) :
    ∃ σ', fillStep false σ idx = some (.ok σ') := by
  have hmem : ∀ {i}, i ∈ (sortByScore σ.meta1 σ.working).reverse ↔ i = 0 ∨ i = 1 := by
    intro i
    rw [mem_reverse, mem_sortByScore, hσ.working.mem_iff]
    simp
  have hlive : ∀ i ∈ (sortByScore σ.meta1 σ.working).reverse,
      (σ.meta1 i).freed = false ∧ (l4AddressHost (σ.meta1 i).addr).isSome := by
    intro i hi
    rcases hmem.mp hi with rfl | rfl
    · rw [hσ.first.1]
      exact ⟨hσ.first.2, by decide +kernel⟩
    · rw [hσ.second.1]
      exact ⟨hσ.second.2, by decide +kernel⟩
  have hsorted := pairwise_reverse.mpr (sortByScore_pairwise σ.meta1 σ.working)
  obtain ⟨i, hi⟩ := (@selectDestFrom_finds_iff { σ with working := sortByScore σ.meta1 σ.working }
    none false true (σ.array idx) _ hsorted hlive).mpr (by
      rcases exists_free hlen hurls with hfree | hfree
      · exact ⟨0, hmem.mpr (.inl rfl), nofun, hσ.first.1 ▸ hfree⟩
      · exact ⟨1, hmem.mpr (.inr rfl), nofun, hσ.second.1 ▸ hfree⟩)
  have hne : (sortByScore σ.meta1 σ.working).isEmpty = false := by
    rw [isEmpty_eq_false_iff]
    exact ne_nil_of_mem (mem_reverse.mp (hmem.mpr (.inl rfl)))
  have hsel : selectDestAssignM1 { σ with working := sortByScore σ.meta1 σ.working } none idx true
      false = some (some i) := by
    rw [selectDestAssignM1]
    simp only [hne, Bool.false_eq_true, if_false]
    exact hi
  simp only [fillStep, hsel, Option.map_some, Option.some.injEq, Except.ok.injEq, exists_eq']

theorem fillLoop_pair : ∀ {l : List Nat} {σ : AssignState}, PairReady σ → PairRoom l σ →
    ∃ σ', fillLoop false l σ = some (.ok σ')
  | [], σ, _, _ => ⟨σ, rfl⟩
  | idx :: rest, σ, hσ, hroom => by
    obtain ⟨hlen, hurls⟩ := hroom idx mem_cons_self
    rw [count_cons_self] at hlen
    obtain ⟨σ', hstep⟩ := fillStep_pair hσ (by omega) hurls
    rw [fillLoop, hstep]
    obtain ⟨j, hj, -, -, rfl⟩ := fillStep_eq_ok hstep
    have hmeta := @setAt_increaseScore σ.meta1 j
    have hurl : (σ.meta1 j).addr = firstUrl ∨ (σ.meta1 j).addr = secondUrl := by
      have hj' : j = 0 ∨ j = 1 := by simpa using hσ.working.mem_iff.mp hj
      rcases hj' with rfl | rfl
      · exact .inl hσ.first.1
      · exact .inr hσ.second.1
    refine fillLoop_pair ⟨(mergeSort_perm _ _).trans hσ.working, ?_, ?_⟩ fun p hp => ?_
    · exact ⟨(hmeta 0).1.trans hσ.first.1, (hmeta 0).2.trans hσ.first.2⟩
    · exact ⟨(hmeta 1).1.trans hσ.second.1, (hmeta 1).2.trans hσ.second.2⟩
    show (setAt σ.array idx _ p).length + _ = 2 ∧ ∀ u ∈ setAt σ.array idx _ p, _
    by_cases hpi : p = idx
    · subst hpi
      rw [setAt_same, length_append, length_singleton]
      refine ⟨by omega, fun u hu => ?_⟩
      rcases mem_append.mp hu with hu | hu
      · exact hurls u hu
      · exact mem_singleton.mp hu ▸ hurl
    · rw [setAt_of_ne _ _ hpi]
      have h := hroom p (mem_cons_of_mem _ hp)
      rwa [count_cons_of_ne (Ne.symm hpi)] at h

theorem assignFill_pair (table : Option (List (Bytes × Bool × Nat))) (htable : table.getD [] = []) :
    ∃ b', assignFill (fun _ => false) ⟨[], table⟩ pairMeta1.services 2 false false = some (.ok b') ∧
      (table = none → b'.meta1Ref = none) := by
  obtain ⟨σ₀, hinit, hready, harray⟩ : ∃ σ₀,
      initAssign (fun _ => false) [] (fun _ => []) pairMeta1.services 2 = .ok σ₀ ∧
      PairReady σ₀ ∧ ∀ p, σ₀.array p = [] := by
    refine ⟨startState (fun _ => []) (initRecords [] [] pairMeta1.services).1 65536, ?_,
      ⟨by decide, by decide, by decide⟩, fun _ => rfl⟩
    simp only [initAssign, arrayToList_empty]
    rfl
  have hroom : PairRoom (fillOrder 2) σ₀ := by
    intro p hp
    rw [harray, count_fillOrder 2 (mem_fillOrder hp)]
    exact ⟨rfl, nofun⟩
  obtain ⟨σ, hloop⟩ := fillLoop_pair hready hroom
  have hinv : FillInv pairMeta1.services false _ σ :=
    (fillInv_initAssign hinit).loop (fun p hp => mem_fillOrder hp) hloop
  have hrefs : Meta0Base.marks ⟨[], table⟩ = [] := by
    rw [Meta0Base.marks, htable]
    rfl
  refine ⟨⟨arrayPairs σ.array, recordMeta1ref (updatedMeta1ref σ) table⟩, ?_, fun hnone => ?_⟩
  · rw [assignFill, hrefs, urls_of_empty rfl, hinit]
    simp only [Bool.false_eq_true, if_false, hloop, Option.map_some, Except.bind, backendAssign]
    rw [assignPrefixes_nodup (by rw [nil_append]; exact nodup_arrayPairs hinv.nodup), nil_append]
    simp only [Except.map]
  · rw [hnone]
    rfl

/-- 2 つの host の META1 が 2 つずつ受け持つ -/
theorem pair_filled : ∃ b', assignFill (fun _ => false) ⟨[], some []⟩ pairMeta1.services 2 false
      false = some (.ok b') ∧ Filled pairMeta1.services 2 false b' ∧
    ScoresSaved pairMeta1.services b' := by
  obtain ⟨b', hfill, -⟩ := assignFill_pair (some []) rfl
  obtain ⟨hfilled, hsaved⟩ := assignFill_filled _ _ b' pairMeta1 2 false false rfl hfill
  exact ⟨b', hfill, hfilled, hsaved.mpr rfl⟩

/-- **`meta1_ref` の table が無ければ、成功しても score は書かれない。** -/
theorem missing_ref_not_saved : ∃ b', assignFill (fun _ => false) ⟨[], none⟩ pairMeta1.services 2
    false false = some (.ok b') ∧ ¬ScoresSaved pairMeta1.services b' := by
  obtain ⟨b', hfill, hnone⟩ := assignFill_pair none rfl
  refine ⟨b', hfill, fun h => ?_⟩
  obtain ⟨rows, hrows, -⟩ := h _ mem_cons_self
  rw [hnone rfl] at hrows
  cases hrows

end Redcurrant.Meta0
