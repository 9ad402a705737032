import Mathlib.Algebra.Order.BigOperators.Group.List
import Mathlib.Algebra.Order.Group.Nat
import Redcurrant.Metautils.LbSet

/-!
# location の欠けた pool

`distance_between_location` は一方だけが NULL の場合を欠き、`_distance_fits` がそこで落ちる。
-/

namespace Redcurrant.Metautils

open Infra List LbOpt

/-! ## 正しさ -/

/-- **どの iterator と要求でも `grid_lb_iterator_next_set` と `next_set2` は返り、組は求めた通り。** -/
def LbSound (lb : Lb) : Prop :=
  (∀ (draws : Nat → Draw) (opt : LbOpt) (it : LbIterator), ∃ r it',
    nextSet lb draws opt it = some (r, it') ∧ ∀ l, r = some l → Chosen opt l) ∧
  ∀ (draws : Nat → Draw) (ext : LbOptExt) (it : LbIterator), ∃ r it',
    nextSet2 lb draws ext it = some (r, it') ∧ ∀ l, r = some l → ChosenExt ext l

theorem lbSound_of_uniform {lb : Lb} (hu : lb.Uniform) : LbSound lb := by
  constructor
  · intro draws opt it
    obtain ⟨⟨r, it'⟩, hr⟩ := nextSet_returns hu draws opt it
    refine ⟨r, it', hr, ?_⟩
    rintro l rfl
    exact (nextSet_chosen hr).1
  · intro draws ext it
    obtain ⟨⟨r, it'⟩, hr⟩ := nextSet_returns hu draws ⟨ext.req, some (extOptFilter ext)⟩ it
    refine ⟨r, it', hr, ?_⟩
    rintro l rfl
    exact (nextSet2_chosen hr).1

/-! ## slot の列 -/

namespace Lb

variable (lb : Lb)

theorem map_index_cumulateScoresSum : ∀ l : List (Nat × Nat),
    (cumulateScoresSum l).map (·.index) = l.map Prod.fst
  | [] => rfl
  | (i, sc) :: l => by
    rw [cumulateScoresSum, map_cons, map_cons, map_index_cumulateScoresSum l]

theorem perm_index_sortedByScore :
    (lb.sortedByScore.map (·.index)).Perm (range lb.services.length) := by
  rw [sortedByScore, map_index_cumulateScoresSum]
  refine ((perm_orderBy _ _).map _).trans ?_
  refine ((reverse_perm _).map _).trans ?_
  rw [map_map]
  have : (Prod.fst ∘ fun s : ServiceInfo × Nat => (s.2, s.1.score.toNat)) = Prod.snd := rfl
  rw [this, zipIdx_map_snd, range_eq_range']

theorem length_sortedByScore : lb.sortedByScore.length = lb.services.length := by
  have h := lb.perm_index_sortedByScore.length_eq
  rwa [length_map, length_range] at h

theorem exists_getSlot {j : Nat} (hj : j < lb.services.length) : ∃ s, lb.getSlot j = some s := by
  have hj' : j < lb.sortedByScore.length := lb.length_sortedByScore ▸ hj
  rw [getSlot, getElem?_eq_getElem hj', Option.bind_some, getRaw]
  exact ⟨_, getElem?_eq_getElem (Nat.mod_lt _ (by omega))⟩

theorem exists_slot_of_mem {s : ServiceInfo} (hs : s ∈ lb.services) :
    ∃ j < lb.services.length, lb.getSlot j = some s := by
  obtain ⟨i, hi, hsi⟩ := mem_iff_getElem.mp hs
  have hmem : i ∈ lb.sortedByScore.map (·.index) :=
    lb.perm_index_sortedByScore.mem_iff.mpr (mem_range.mpr hi)
  obtain ⟨slot, hslot, rfl⟩ := mem_map.mp hmem
  obtain ⟨j, hj, hjs⟩ := mem_iff_getElem.mp hslot
  refine ⟨j, lb.length_sortedByScore ▸ hj, ?_⟩
  rw [getSlot, getElem?_eq_getElem hj, hjs, Option.bind_some, getRaw, Nat.mod_eq_of_lt hi,
    getElem?_eq_getElem hi, hsi]

end Lb

/-! ## 落ちる要求 -/

theorem exists_unsatisfied_class (l : List ServiceInfo) :
    ∃ x : Bytes, ∀ s ∈ l, s.checkStorageClass (some x) = false := by
  refine ⟨replicate (6 + (l.map fun s => (s.stgclass.getD []).length).sum) 120, ?_⟩
  intro s hs
  have hle := single_le_sum (l := l.map fun s => (s.stgclass.getD []).length) (by simp)
    _ (mem_map_of_mem hs)
  rw [← Bool.not_eq_true]
  intro h
  simp only [ServiceInfo.checkStorageClass, storageClassIsSatisfied, isAny, isNone,
    Bool.or_eq_true, List.isEmpty_iff, Option.any_some] at h
  rcases h with ((h | h) | h) | h
  · have := congrArg List.length h
    simp at this
  · have := length_eq_of_strcaseeq h
    simp [ascii] at this
    omega
  · have := length_eq_of_strcaseeq h
    simp [ascii] at this
    omega
  · cases hc : s.stgclass with
    | none => simp [hc] at h
    | some c =>
      rw [hc] at h hle
      have := length_eq_of_strcaseeq h
      simp at this hle
      omega

/-- 落ちる要求。`a` と、空でない location の service だけを受け入れる。 -/
def crashOpt (a : ServiceInfo) (x : Bytes) : LbOpt where
  req :=
    { max := 2
      distance := 1
      duplicates := false
      shuffle := false
      stgclass := some ⟨some x, replicate 3 (some (ascii "NONE"))⟩
      strictStgclass := false }
  filter := some fun s => s == a || !(s.location.getD []).isEmpty

section

variable {lb : Lb} {draws : Nat → Draw} {a : ServiceInfo} {x : Bytes} {i : Nat}

theorem checkStorageClass_none (s : ServiceInfo) :
    s.checkStorageClass (some (ascii "NONE")) = true := by
  rfl

variable {s : ServiceInfo} {polled : List ServiceInfo}

theorem admits_crash (ha : a.location = none) (hs : s.location.getD [] ≠ []) :
    (crashOpt a x).admits (some (ascii "NONE")) [a] s = none := by
  have hfilter : filterMatches (crashOpt a x).filter s = true := by
    simp [filterMatches, crashOpt, hs]
  rw [admits, checkStorageClass_none, hfilter]
  cases hl : s.location with
  | none => simp [hl] at hs
  | some loc =>
    have hne : loc.isEmpty = false := by simpa [hl] using hs
    simp [distanceFits, crashOpt, hl, distanceFitsFrom, ha, distanceBetweenLocation, hne]

theorem admits_skip (ha : a.location = none) (hs : s.location.getD [] = []) :
    (crashOpt a x).admits (some (ascii "NONE")) [a] s = some false ∨
      s = a ∧ (crashOpt a x).admits (some (ascii "NONE")) [a] s = some true := by
  rw [admits, checkStorageClass_none]
  by_cases he : s = a
  · subst he
    have hfilter : filterMatches (crashOpt s x).filter s = true := by
      simp [filterMatches, crashOpt]
    rw [hfilter]
    simp [distanceFits, ha]
  · refine Or.inl ?_
    have hfilter : filterMatches (crashOpt a x).filter s = false := by
      simp [filterMatches, crashOpt, hs, he]
    rw [hfilter]
    rfl

/-- `i` から読み始めて `t` 番目の service -/
def Lb.visit (lb : Lb) (i t : Nat) : Option ServiceInfo :=
  lb.getSlot ((i + t) % 2 ^ 32 % lb.services.length)

theorem next_rr_global (hne : lb.services ≠ []) (d : Draw) (k t : Nat) :
    lb.next d false (.rr k ((i + t) % 2 ^ 32)) =
      (lb.visit i t, .rr k ((i + (t + 1)) % 2 ^ 32)) := by
  have hsucc : guintSucc ((i + t) % 2 ^ 32) = (i + (t + 1)) % 2 ^ 32 := by
    rw [guintSucc]
    omega
  simp only [Lb.next, Lb.nextGlobal, if_pos (lb.sizeMax_pos hne), Bool.false_eq_true, if_false,
    hsucc]
  rfl

def crashRun (lb : Lb) (draws : Nat → Draw) (a : ServiceInfo) (x : Bytes) (limit passes : Nat)
    (s : SearchState) : Option SearchState :=
  (searchLoop lb draws (crashOpt a x) (some (ascii "NONE")) false limit s).bind fun s =>
    (replicate passes (some (ascii "NONE"))).foldlM (searchMore lb draws (crashOpt a x)) s

theorem crashRun_zero {passes k g calls : Nat} (hlen : polled.length < 2) :
    crashRun lb draws a x 0 (passes + 1) ⟨.rr k g, calls, polled⟩ =
      crashRun lb draws a x lb.services.length passes ⟨.rr k g, calls, polled⟩ := by
  rw [crashRun, searchLoop, if_neg (by simp), Option.bind_some, replicate_succ,
    foldlM_cons, searchMore, if_pos (by exact hlen)]
  rfl

/-- **`a` が木にあれば、空でない location の service に会うまで読み進めて落ちる。** その service までの数 `n` の帰納法。 -/
theorem crashRun_eq_none (ha : a.location = none) (hne : lb.services ≠ []) {n : Nat} :
    ∀ {limit passes t k calls : Nat}, 0 < limit → n < limit + lb.services.length * passes →
      (∃ s, lb.visit i (t + n) = some s ∧ s.location.getD [] ≠ []) →
      crashRun lb draws a x limit passes ⟨.rr k ((i + t) % 2 ^ 32), calls, [a]⟩ = none := by
  induction n with
  | zero =>
    intro limit passes t k calls hlimit _ hvisit
    obtain ⟨s, hs, hloc⟩ := hvisit
    rw [crashRun, searchLoop, if_pos ⟨hlimit, by simp [crashOpt]⟩, next_rr_global hne, ← t.add_zero,
      hs]
    simp only [admits_crash ha hloc]
    rfl
  | succ n ih =>
    intro limit passes t k calls hlimit hbudget hvisit
    obtain ⟨s, hs⟩ : ∃ s, lb.visit i t = some s := lb.exists_getSlot
      (Nat.mod_lt _ (length_pos_iff.mpr hne))
    have hnext := next_rr_global (i := i) hne (draws calls) k t
    rw [hs] at hnext
    by_cases hloc : s.location.getD [] = []
    · -- 木は変わらず、残りの回数が 1 減る
      have hstep : crashRun lb draws a x limit passes ⟨.rr k ((i + t) % 2 ^ 32), calls, [a]⟩ =
          crashRun lb draws a x (limit - 1) passes
            ⟨.rr k ((i + (t + 1)) % 2 ^ 32), calls + 1, [a]⟩ := by
        rw [crashRun, searchLoop, if_pos ⟨hlimit, by simp [crashOpt]⟩, hnext]
        rcases admits_skip (x := x) ha hloc with hadm | ⟨rfl, hadm⟩
        · simp only [hadm]
          rfl
        have hpresent : (crashOpt s x).present [s] s = true := by
          simp [present, crashOpt]
        have hswap : swapInto [s] s = [s] := by simp [swapInto]
        simp only [hadm, hpresent, hswap, if_true]
        rfl
      rw [hstep]
      have hvisit' : ∃ s, lb.visit i (t + 1 + n) = some s ∧ s.location.getD [] ≠ [] := by
        rwa [show t + 1 + n = t + (n + 1) from by omega]
      by_cases hlast : limit - 1 = 0
      · cases passes with
        | zero => omega
        | succ passes =>
          rw [hlast, crashRun_zero (by simp)]
          refine ih (length_pos_iff.mpr hne) ?_ hvisit'
          rw [Nat.mul_add] at hbudget
          omega
      · exact ih (by omega) (by omega) hvisit'
    · rw [crashRun, searchLoop, if_pos ⟨hlimit, by simp [crashOpt]⟩, hnext]
      simp only [admits_crash ha hloc]
      rfl

/-! ## 望む位置から始める -/

theorem admits_reject {c : Option Bytes} {opt : LbOpt} (h : s.checkStorageClass c = false) :
    opt.admits c polled s = some false := by
  rw [admits, h]
  rfl

theorem searchLoop_reject {opt : LbOpt} {c : Option Bytes} {shorten : Bool} {limit calls : Nat}
    {it it' : LbIterator} (hlimit : 0 < limit) (hlen : polled.length < opt.req.max)
    (hnext : lb.next (draws calls) shorten it = (some s, it')) (hs : s.checkStorageClass c = false) :
    searchLoop lb draws opt c shorten limit ⟨it, calls, polled⟩ =
      searchLoop lb draws opt c shorten (limit - 1) ⟨it', calls + 1, polled⟩ := by
  rw [searchLoop, if_pos ⟨hlimit, hlen⟩, hnext]
  simp only [admits_reject hs]

theorem searchLoop_shorten (draws : Nat → Draw) (a : ServiceInfo) (hne : lb.services ≠ [])
    (hx : ∀ s ∈ lb.services, s.checkStorageClass (some x) = false) (g : Nat) :
    ∀ limit k calls : Nat, ∃ k' calls', searchLoop lb draws (crashOpt a x) (some x) true limit
      ⟨.rr k g, calls, []⟩ = some ⟨.rr k' g, calls', []⟩
  | 0, k, calls => ⟨k, calls, by rw [searchLoop, if_neg (by simp)]⟩
  | limit + 1, k, calls => by
    have hpos := lb.sizeMax_pos hne
    have hmod := Nat.mod_lt k hpos
    obtain ⟨s, hs⟩ := lb.exists_getSlot (hmod.trans_le lb.sizeMax_le)
    have hnext : lb.next (draws calls) true (.rr k g) = (some s, .rr (guintSucc k) g) := by
      rw [Lb.next, if_pos rfl, Lb.getByScore, if_neg (by omega), hs]
    obtain ⟨k', calls', h⟩ := searchLoop_shorten draws a hne hx g limit (guintSucc k) (calls + 1)
    refine ⟨k', calls', ?_⟩
    rw [searchLoop_reject (Nat.succ_pos _) (by simp [crashOpt]) hnext (hx s (Lb.mem_of_getSlot hs))]
    exact h

theorem searchLoop_global (draws : Nat → Draw) (a : ServiceInfo) (hne : lb.services ≠ [])
    (hx : ∀ s ∈ lb.services, s.checkStorageClass (some x) = false) (i k : Nat) :
    ∀ limit t calls : Nat, ∃ calls', searchLoop lb draws (crashOpt a x) (some x) false limit
      ⟨.rr k ((i + t) % 2 ^ 32), calls, []⟩ = some ⟨.rr k ((i + (t + limit)) % 2 ^ 32), calls', []⟩
  | 0, t, calls => ⟨calls, by rw [searchLoop, if_neg (by simp), Nat.add_zero]⟩
  | limit + 1, t, calls => by
    obtain ⟨s, hs⟩ : ∃ s, lb.visit i t = some s := lb.exists_getSlot
      (Nat.mod_lt _ (length_pos_iff.mpr hne))
    have hnext := next_rr_global (i := i) hne (draws calls) k t
    rw [hs] at hnext
    obtain ⟨calls', h⟩ := searchLoop_global draws a hne hx i k limit (t + 1) (calls + 1)
    refine ⟨calls', ?_⟩
    rw [searchLoop_reject (Nat.succ_pos _) (by simp [crashOpt]) hnext (hx s (Lb.mem_of_getSlot hs))]
    rwa [show t + (limit + 1) = t + 1 + limit from by omega]

theorem crashRun_start (ha : a.location = none) (hne : lb.services ≠ [])
    (hi : lb.visit i 0 = some a) {passes k calls : Nat} :
    crashRun lb draws a x lb.services.length passes ⟨.rr k ((i + 0) % 2 ^ 32), calls, []⟩ =
      crashRun lb draws a x lb.services.length passes
        ⟨.rr k ((i + 1) % 2 ^ 32), calls + 1, [a]⟩ := by
  have hadm : (crashOpt a x).admits (some (ascii "NONE")) [] a = some true := by
    have hfilter : filterMatches (crashOpt a x).filter a = true := by
      simp [filterMatches, crashOpt]
    rw [admits, checkStorageClass_none, hfilter]
    simp [distanceFits, ha]
  have hpresent : (crashOpt a x).present [] a = false := by simp [LbOpt.present]
  have hinsert : (crashOpt a x).insert (draws calls) [] a = [a] := by simp [LbOpt.insert]
  have hnext := next_rr_global (i := i) hne (draws calls) k 0
  rw [hi] at hnext
  rw [crashRun, searchLoop, if_pos ⟨length_pos_iff.mpr hne, by simp [crashOpt]⟩, hnext]
  simp only [hadm, hpresent, hinsert, Bool.false_eq_true, if_false]
  rfl

theorem exists_visit {n i j : Nat} (hn : n < 2 ^ 32) (hi : i < n) (hj : j < n) (hij : i ≠ j) :
    ∃ m < n + n * 2, (i + (1 + m)) % 2 ^ 32 % n = j := by
  rcases Nat.lt_or_gt_of_ne hij with h | h
  · refine ⟨j - i - 1, by omega, ?_⟩
    have hlt : j < 2 ^ 32 := by omega
    rw [show i + (1 + (j - i - 1)) = j from by omega, Nat.mod_eq_of_lt hlt, Nat.mod_eq_of_lt hj]
  by_cases hwrap : n + j < 2 ^ 32
  · refine ⟨n + j - i - 1, by omega, ?_⟩
    rw [show i + (1 + (n + j - i - 1)) = n + j from by omega, Nat.mod_eq_of_lt hwrap,
      Nat.add_mod_left, Nat.mod_eq_of_lt hj]
  -- cursor が `guint` を一周し、0 に戻る
  refine ⟨2 ^ 32 + j - i - 1, by omega, ?_⟩
  have hlt : j < 2 ^ 32 := by omega
  rw [show i + (1 + (2 ^ 32 + j - i - 1)) = 2 ^ 32 + j from by omega, Nat.add_mod_left,
    Nat.mod_eq_of_lt hlt, Nat.mod_eq_of_lt hj]

/-- **location の無い service と空でない service の pool では落ちる要求がある。** -/
theorem exists_crash (draws : Nat → Draw) {b : ServiceInfo} (ham : a ∈ lb.services)
    (hbm : b ∈ lb.services) (ha : a.location = none) (hb : b.location.getD [] ≠ []) :
    ∃ opt it, nextSet lb draws opt it = none := by
  have hne : lb.services ≠ [] := ne_nil_of_mem ham
  have hlt := lb.length_lt
  obtain ⟨i, hi, hia⟩ := lb.exists_slot_of_mem ham
  obtain ⟨j, hj, hjb⟩ := lb.exists_slot_of_mem hbm
  have hij : i ≠ j := by
    rintro rfl
    rw [hia] at hjb
    cases hjb
    simp [ha] at hb
  obtain ⟨x, hx⟩ := exists_unsatisfied_class lb.services
  obtain ⟨m, hm, hvisit⟩ := exists_visit hlt hi hj hij
  refine ⟨crashOpt a x, .rr 0 ((i + (2 ^ 32 - lb.services.length) + 0) % 2 ^ 32), ?_⟩
  -- はじめの 2 回の探索で、cursor は `i` に来る
  obtain ⟨k, calls, h1⟩ := searchLoop_shorten draws a hne hx
    ((i + (2 ^ 32 - lb.services.length) + 0) % 2 ^ 32) lb.sizeMax 0 0
  obtain ⟨calls', h2⟩ := searchLoop_global draws a hne hx (i + (2 ^ 32 - lb.services.length)) k
    lb.services.length 0 calls
  rw [show (i + (2 ^ 32 - lb.services.length) + (0 + lb.services.length)) % 2 ^ 32 =
    (i + 0) % 2 ^ 32 from by omega] at h2
  have hcrash : crashRun lb draws a x lb.services.length 2
      ⟨.rr k ((i + 0) % 2 ^ 32), calls', []⟩ = none := by
    have hstart : lb.visit i 0 = some a := by
      rw [Lb.visit, Nat.add_zero, Nat.mod_eq_of_lt (hi.trans hlt), Nat.mod_eq_of_lt hi, hia]
    rw [crashRun_start ha hne hstart]
    refine crashRun_eq_none ha hne (length_pos_iff.mpr hne) hm ⟨b, ?_, hb⟩
    rw [Lb.visit, hvisit, hjb]
  have hclasses : (crashOpt a x).classes = some x :: replicate 3 (some (ascii "NONE")) := rfl
  have hsearch : nextSetFrom lb draws (crashOpt a x)
      ⟨.rr 0 ((i + (2 ^ 32 - lb.services.length) + 0) % 2 ^ 32), 0, []⟩ = none := by
    rw [nextSetFrom, hclasses]
    have hfirst : searchServers lb draws (crashOpt a x)
        ((crashOpt a x).req.stgclass.bind (·.name)) true
        ⟨.rr 0 ((i + (2 ^ 32 - lb.services.length) + 0) % 2 ^ 32), 0, []⟩ = _ := h1
    have hsecond : searchMore lb draws (crashOpt a x)
        ⟨.rr k ((i + (2 ^ 32 - lb.services.length) + 0) % 2 ^ 32), calls, []⟩ (some x) = _ := h2
    rw [hfirst, Option.bind_some, foldlM_cons, hsecond]
    exact hcrash
  have hlength : ¬ lb.services.length < 2 := by omega
  rw [nextSet, if_neg (by simpa [crashOpt] using hlength), hsearch]
  rfl

end

/-- **組を選ぶ関数が正しいのは location の揃った pool のとき。** -/
theorem lb_sound_iff (lb : Lb) : LbSound lb ↔ lb.Uniform := by
  refine ⟨fun h => ?_, lbSound_of_uniform⟩
  by_contra hu
  obtain ⟨ha, hb⟩ := not_or.mp hu
  push Not at ha hb
  obtain ⟨a, ham, ha⟩ := ha
  obtain ⟨b, hbm, hb⟩ := hb
  obtain ⟨opt, it, hcrash⟩ := exists_crash (fun _ => ⟨0, 0, 0, 0⟩) ham hbm ha hb
  obtain ⟨r, it', hr, -⟩ := h.1 _ opt it
  rw [hcrash] at hr
  cases hr

/-- location の無い service と、location を持つ service -/
def mixedLb : Lb where
  services :=
    [⟨ascii "NS", ascii "rawx", ⟨.v4, [127, 0, 0, 1], 6001, 0⟩, 50,
      [⟨ascii "tag.loc", .text (ascii "a.b")⟩]⟩,
    ⟨ascii "NS", ascii "rawx", ⟨.v4, [127, 0, 0, 1], 6000, 0⟩, 90, []⟩]
  sizeMax := 2
  version := 1
  resetDelay := 0
  scored := by decide
  length_lt := by decide
  sizeMax_le := by decide
  sizeMax_pos := by decide

/-- **反例。** location の無い service から、距離 1 の 2 つを求めると落ちる。 -/
theorem mixedLb_crash :
    nextSet mixedLb (fun _ => ⟨0, 0, 0, 0⟩) ⟨⟨2, 1, false, false, none, false⟩, none⟩
      (.rr 0 0) = none :=
  Option.isNone_iff_eq_none.mp (by decide +kernel)

end Redcurrant.Metautils
