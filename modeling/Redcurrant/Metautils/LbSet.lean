import Redcurrant.Metautils.Lb

/-!
# 選ばれた service の組

`nextSet` が返した組は求めた通りのものである（`Chosen`）。探索の途中の木は不変条件 `Polled` を満たす。
-/

namespace Redcurrant.Metautils

open Infra List

/-! ## iterator の返す service -/

namespace Lb

variable {lb : Lb} {si : ServiceInfo}

variable {idx : Nat}

theorem mem_of_getRaw (h : lb.getRaw idx = some si) : si ∈ lb.services := mem_of_getElem? h

theorem mem_of_getSlot (h : lb.getSlot idx = some si) : si ∈ lb.services := by
  obtain ⟨slot, -, h⟩ := Option.bind_eq_some_iff.mp h
  exact mem_of_getRaw h

theorem mem_of_getByScore (h : lb.getByScore idx = some si) : si ∈ lb.services := by
  rw [getByScore] at h
  split at h
  · cases h
  · exact mem_of_getSlot h

theorem mem_of_nextGlobal (h : (lb.nextGlobal idx).1 = some si) : si ∈ lb.services := by
  rw [nextGlobal] at h
  split at h
  · exact mem_of_getSlot h
  · cases h

/-- **iterator が返すのは pool の service。** -/
theorem mem_of_next {d : Draw} {shorten : Bool} :
    ∀ {it : LbIterator}, (lb.next d shorten it).1 = some si → si ∈ lb.services
  | .single version nextIdx, h => by
    rw [next, nextSingle] at h
    split at h
    · exact mem_of_getRaw h
    · cases h
  | .rr nextIdx nextIdxGlobal, h => by
    rw [next] at h
    split at h
    · exact mem_of_getByScore h
    · exact mem_of_nextGlobal h
  | .wrr nextIdx nextIdxGlobal current lastReset, h => by
    rw [next] at h
    split at h
    · rw [nextSrr] at h
      split at h
      · cases h
      · exact mem_of_getByScore h
    · exact mem_of_nextGlobal h
  | .rand, h => mem_of_getByScore h
  | .wrand, h => by
    rw [next, nextSrand] at h
    split at h
    · cases h
    · exact mem_of_getByScore h
  | .shared sub, h => by
    have hsub : (lb.next d shorten sub).1 = some si := h
    exact mem_of_next hsub

end Lb

/-! ## 距離 -/

/-- location を持つなら、`d` だけ離れている -/
def Spaced (d : Nat) (a b : ServiceInfo) : Prop :=
  ∀ la lb, a.location = some la → b.location = some lb → d ≤ locationDistance la lb

theorem Spaced.symm {d : Nat} {a b : ServiceInfo} (h : Spaced d a b) : Spaced d b a := by
  intro lb la hb ha
  rw [locationDistance_comm]
  exact h la lb ha hb

theorem spaced_of_distanceFitsFrom {d : Nat} {loc lv : Bytes} {polled : List ServiceInfo}
    {v : ServiceInfo} (h : distanceFitsFrom d loc polled = some true) (hv : v ∈ polled)
    (hlv : v.location = some lv) : d ≤ locationDistance loc lv := by
  induction polled with
  | nil => cases hv
  | cons x l ih =>
    rw [distanceFitsFrom] at h
    split at h
    · cases h
    rename_i dist hdist
    split at h
    · cases h
    rcases mem_cons.mp hv with rfl | hv
    · rw [hlv, distanceBetweenLocation, Option.some.injEq] at hdist
      omega
    · exact ih h hv

theorem spaced_of_distanceFits {d : Nat} {polled : List ServiceInfo} {si v : ServiceInfo}
    (h : distanceFits d polled si = some true) (hv : v ∈ polled) : Spaced d si v := by
  intro la lb hla hlb
  rw [distanceFits] at h
  split at h
  · omega
  · rw [hla] at h
    exact spaced_of_distanceFitsFrom h hv hlb

/-! ## 木の不変条件 -/

namespace LbOpt

variable (opt : LbOpt)

/-- filter と storage class を満たす -/
def Accepts (si : ServiceInfo) : Prop :=
  filterMatches opt.filter si = true ∧ ∃ c ∈ opt.classes, si.checkStorageClass c = true

end LbOpt

/-- 探索の途中の木の不変条件 -/
structure Polled (lb : Lb) (opt : LbOpt) (polled : List ServiceInfo) : Prop where
  mem : ∀ s ∈ polled, s ∈ lb.services
  accepts : ∀ s ∈ polled, opt.Accepts s
  distinct : opt.req.duplicates = false → polled.Pairwise fun a b => a.addr.key ≠ b.addr.key
  spaced : polled.Pairwise (Spaced opt.req.distance)
  length_le : polled.length ≤ opt.req.max

section

variable {lb : Lb} {opt : LbOpt} {polled : List ServiceInfo} {si : ServiceInfo}

theorem polled_nil : Polled lb opt [] := ⟨by simp, by simp, fun _ => .nil, .nil, Nat.zero_le _⟩

theorem of_admits {c : Option Bytes} (hc : c ∈ opt.classes)
    (h : opt.admits c polled si = some true) :
    opt.Accepts si ∧ ∀ v ∈ polled, Spaced opt.req.distance si v := by
  rw [LbOpt.admits] at h
  split at h
  · rename_i hok
    rw [Bool.and_eq_true] at hok
    exact ⟨⟨hok.2, c, hc, hok.1⟩, fun v hv => spaced_of_distanceFits h hv⟩
  · cases h

theorem perm_insert (opt : LbOpt) (d : Draw) (polled : List ServiceInfo) (si : ServiceInfo) :
    (opt.insert d polled si).Perm (si :: polled) := by
  refine perm_middle.trans ?_
  rw [take_append_drop]

theorem Polled.perm {polled' : List ServiceInfo} (h : Polled lb opt polled)
    (hp : polled'.Perm polled) : Polled lb opt polled' where
  mem s hs := h.mem s (hp.mem_iff.mp hs)
  accepts s hs := h.accepts s (hp.mem_iff.mp hs)
  distinct hd := (hp.pairwise_iff fun h => Ne.symm h).mpr (h.distinct hd)
  spaced := (hp.pairwise_iff Spaced.symm).mpr h.spaced
  length_le := hp.length_eq ▸ h.length_le

variable (h : Polled lb opt polled) (hmem : si ∈ lb.services)
  (hsi : opt.Accepts si ∧ ∀ v ∈ polled, Spaced opt.req.distance si v)
include h hmem hsi

theorem Polled.insert (hnew : opt.present polled si = false) (hlen : polled.length < opt.req.max)
    (d : Draw) :
    Polled lb opt (opt.insert d polled si) := by
  refine Polled.perm ?_ (perm_insert opt d polled si)
  refine ⟨?_, ?_, fun hd => ?_, ?_, hlen⟩
  · simpa using ⟨hmem, h.mem⟩
  · simpa using ⟨hsi.1, h.accepts⟩
  · refine pairwise_cons.mpr ⟨fun v hv he => ?_, h.distinct hd⟩
    simp only [LbOpt.present, hd, Bool.not_false, Bool.true_and, any_eq_false,
      addrInfoEqual_iff] at hnew
    exact hnew v hv he.symm
  · exact pairwise_cons.mpr ⟨hsi.2, h.spaced⟩

theorem Polled.swapInto (hold : opt.present polled si = true) :
    Polled lb opt (swapInto polled si) := by
  have hdup : opt.req.duplicates = false := by
    rw [LbOpt.present, Bool.and_eq_true, Bool.not_eq_true'] at hold
    exact hold.1
  have hkey : ∀ v : ServiceInfo,
      (if addrInfoEqual v.addr si.addr then si else v).addr.key = v.addr.key := by
    intro v
    split
    · rename_i he
      exact (addrInfoEqual_iff.mp he).symm
    · rfl
  refine ⟨?_, ?_, fun _ => ?_, ?_, ?_⟩
  · intro s hs
    obtain ⟨v, hv, rfl⟩ := mem_map.mp hs
    split
    · exact hmem
    · exact h.mem v hv
  · intro s hs
    obtain ⟨v, hv, rfl⟩ := mem_map.mp hs
    split
    · exact hsi.1
    · exact h.accepts v hv
  · rw [Metautils.swapInto, pairwise_map]
    refine (h.distinct hdup).imp fun hne => ?_
    rwa [hkey, hkey]
  · rw [Metautils.swapInto, pairwise_map]
    refine ((h.distinct hdup).and h.spaced).imp_of_mem fun {a b} ha hb hab => ?_
    by_cases hea : addrInfoEqual a.addr si.addr = true
    · rw [if_pos hea, if_neg]
      · exact hsi.2 b hb
      · intro heb
        exact hab.1 ((addrInfoEqual_iff.mp hea).trans (addrInfoEqual_iff.mp heb).symm)
    rw [if_neg hea]
    split
    · exact (hsi.2 a ha).symm
    · exact hab.2
  · rw [length_swapInto]
    exact h.length_le

end

/-! ## 探索 -/

/-- どの service も location を持つか、空でない location が無い -/
def Lb.Uniform (lb : Lb) : Prop :=
  (∀ s ∈ lb.services, s.location ≠ none) ∨ ∀ s ∈ lb.services, s.location.getD [] = []

section

variable {lb : Lb} {draws : Nat → Draw} {opt : LbOpt} {c : Option Bytes} {shorten : Bool}
  {s : SearchState} {r : Option SearchState}

theorem distance_isSome (hu : lb.Uniform) {si v : ServiceInfo} {loc : Bytes}
    (hsi : si ∈ lb.services) (hloc : si.location = some loc) (hv : v ∈ lb.services) :
    distanceBetweenLocation (some loc) v.location ≠ none := by
  rcases hu with hu | hu
  · cases hl : v.location with
    | none => exact absurd hl (hu v hv)
    | some l => simp [distanceBetweenLocation]
  have hnil := hu si hsi
  rw [hloc] at hnil
  subst hnil
  cases v.location <;> simp [distanceBetweenLocation]

theorem distanceFitsFrom_isSome {d : Nat} {loc : Bytes} : ∀ {polled : List ServiceInfo},
    (∀ v ∈ polled, distanceBetweenLocation (some loc) v.location ≠ none) →
    distanceFitsFrom d loc polled ≠ none
  | [], _ => by simp [distanceFitsFrom]
  | v :: l, h => by
    rw [distanceFitsFrom]
    split
    · rename_i hv
      exact absurd hv (h v mem_cons_self)
    split
    · simp
    · exact distanceFitsFrom_isSome fun x hx => h x (mem_cons_of_mem _ hx)

theorem admits_isSome (hu : lb.Uniform) {polled : List ServiceInfo} {si : ServiceInfo}
    (hmem : ∀ v ∈ polled, v ∈ lb.services) (hsi : si ∈ lb.services) :
    opt.admits c polled si ≠ none := by
  rw [LbOpt.admits]
  split
  · rw [distanceFits]
    split
    · simp
    split
    · simp
    · rename_i loc hloc
      exact distanceFitsFrom_isSome fun v hv => distance_isSome hu hsi hloc (hmem v hv)
  · simp

/-- 不変条件を満たし、location が揃えば落ちない -/
structure Searched (lb : Lb) (opt : LbOpt) (r : Option SearchState) : Prop where
  polled : ∀ s, r = some s → Polled lb opt s.polled
  returns : lb.Uniform → ∃ s, r = some s

theorem Searched.pure (h : Polled lb opt s.polled) : Searched lb opt (some s) :=
  ⟨fun _ hs => Option.some.inj hs ▸ h, fun _ => ⟨s, rfl⟩⟩

theorem Searched.bind {f : SearchState → Option SearchState} (h : Searched lb opt r)
    (hf : ∀ s, Polled lb opt s.polled → Searched lb opt (f s)) : Searched lb opt (r.bind f) := by
  cases r with
  | none => exact ⟨nofun, h.returns⟩
  | some s => exact hf s (h.polled s rfl)

/-- **探索の loop は不変条件を保つ。** -/
theorem searched_searchLoop (hc : c ∈ opt.classes) {limit : Nat} (h : Polled lb opt s.polled) :
    Searched lb opt (searchLoop lb draws opt c shorten limit s) := by
  fun_induction searchLoop lb draws opt c shorten limit s with
  | case1 limit s hlt it hnext | case6 limit s hlt => exact .pure h
  | case2 limit s hlt si it hnext hadm =>
    refine ⟨nofun, fun hu => ?_⟩
    exact absurd hadm (admits_isSome hu h.mem (Lb.mem_of_next (congrArg Prod.fst hnext)))
  | case3 limit s hlt si it hnext hadm ih => exact ih h
  | case4 limit s hlt si it hnext hadm hold ih =>
    exact ih (h.swapInto (Lb.mem_of_next (congrArg Prod.fst hnext)) (of_admits hc hadm) hold)
  | case5 limit s hlt si it hnext hadm hnew ih =>
    refine ih (h.insert (Lb.mem_of_next (congrArg Prod.fst hnext)) (of_admits hc hadm) ?_ hlt.2 _)
    exact Bool.not_eq_true _ ▸ hnew

theorem searched_foldlM : ∀ {cs : List (Option Bytes)} {s : SearchState},
    (∀ c ∈ cs, c ∈ opt.classes) → Polled lb opt s.polled →
    Searched lb opt (cs.foldlM (searchMore lb draws opt) s)
  | [], s, _, h => .pure h
  | c :: cs, s, hcs, h => by
    have hmore : Searched lb opt (searchMore lb draws opt s c) := by
      rw [searchMore]
      split
      · exact searched_searchLoop (hcs c mem_cons_self) h
      · exact .pure h
    exact hmore.bind fun s hs => searched_foldlM (fun c hc => hcs c (mem_cons_of_mem _ hc)) hs

theorem searched_nextSetFrom (h : Polled lb opt s.polled) :
    Searched lb opt (nextSetFrom lb draws opt s) :=
  (searched_searchLoop mem_cons_self h).bind fun _ hs => searched_foldlM (fun _ hc => hc) hs

end

/-! ## 結果を混ぜる -/

theorem perm_shuffleStep (l : List ServiceInfo) (i : Nat) : (shuffleStep l i).Perm l := by
  rw [shuffleStep]
  split
  · exact .refl l
  rename_i x hx
  obtain ⟨hi, hx⟩ := List.getElem?_eq_some_iff.mp hx
  obtain ⟨a, b, hl, ha⟩ : ∃ a b, l = a ++ x :: b ∧ a.length = i :=
    ⟨l.take i, l.drop (i + 1), by rw [← hx, getElem_cons_drop, take_append_drop],
      length_take_of_le hi.le⟩
  subst hl ha
  rw [set_append_right _ _ (Nat.le_refl _), Nat.sub_self, set_cons_zero]
  rcases eq_nil_or_concat b with rfl | ⟨b, y, rfl⟩
  · simp
  simp only [concat_eq_append]
  have hlast : (a ++ x :: (b ++ [y])).getLast? = some y := by
    rw [← cons_append, ← append_assoc, getLast?_append]
    rfl
  have hdrop : (a ++ y :: (b ++ [y])).dropLast = a ++ y :: b := by
    rw [← cons_append, ← append_assoc, dropLast_concat]
  rw [hlast, Option.getD_some, hdrop, append_assoc]
  refine List.Perm.append_left a ?_
  have hcomm : ((y :: b) ++ [x]).Perm ([x] ++ (y :: b)) := perm_append_comm
  exact hcomm.trans ((perm_append_singleton y b).symm.cons x)

theorem perm_shuffle (draws : Nat → Draw) (start : Nat) (l : List ServiceInfo) :
    (shuffle draws start l).Perm l := by
  rw [shuffle]
  generalize range (l.length - 1) = is
  suffices h : ∀ l' : List ServiceInfo, l'.Perm l →
      (is.foldl (fun l i => shuffleStep l ((draws (start + i)).rand % (l.length - 1))) l').Perm l by
    exact h l (.refl l)
  induction is with
  | nil => exact fun l' h => h
  | cons i is ih => exact fun l' h => ih _ ((perm_shuffleStep _ _).trans h)

/-! ## 組を求める -/

structure Chosen (opt : LbOpt) (l : List ServiceInfo) : Prop where
  length_eq : l.length = opt.req.max
  accepts : ∀ s ∈ l, opt.Accepts s
  distinct : opt.req.duplicates = false → l.Pairwise fun a b => a.addr.key ≠ b.addr.key
  spaced : l.Pairwise (Spaced opt.req.distance)

section

variable {lb : Lb} {draws : Nat → Draw} {opt : LbOpt} {it it' : LbIterator} {l : List ServiceInfo}

/-- **`grid_lb_iterator_next_set` が返した組は求めた通り。** -/
theorem nextSet_chosen (h : nextSet lb draws opt it = some (some l, it')) :
    Chosen opt l ∧ ∀ s ∈ l, s ∈ lb.services := by
  rw [nextSet] at h
  split at h
  · cases h
  obtain ⟨s, hs, h⟩ := Option.map_eq_some_iff.mp h
  have hpolled := (searched_nextSetFrom polled_nil).polled s hs
  split at h
  · cases h
  rename_i hlen
  cases h
  have hperm : (if opt.req.shuffle then shuffle draws s.calls s.polled else s.polled).Perm
      s.polled := by
    split
    · exact perm_shuffle draws s.calls s.polled
    · exact .refl _
  have hl := hpolled.perm hperm
  refine ⟨⟨?_, hl.accepts, hl.distinct, hl.spaced⟩, hl.mem⟩
  have := hl.length_le
  rw [hperm.length_eq] at this ⊢
  omega

/-- 使えない service と、置かれた service の条件 -/
structure ChosenExt (ext : LbOptExt) (l : List ServiceInfo) : Prop where
  chosen : Chosen ⟨ext.req, ext.filter⟩ l
  allowed : ∀ s ∈ l, ∀ s₀ ∈ ext.srvForbidden, s.addr.key ≠ s₀.addr.key
  notInplace : ext.req.duplicates = false → ∀ s ∈ l, ∀ s₀ ∈ ext.srvInplace, s.addr.key ≠ s₀.addr.key
  farInplace : ∀ s ∈ l, ∀ s₀ ∈ ext.srvInplace, ext.req.distance ≤ distanceBetweenServices s s₀

theorem extOptFilter_iff {ext : LbOptExt} {si : ServiceInfo} : extOptFilter ext si = true ↔
    (∀ s0 ∈ ext.srvForbidden, si.addr.key ≠ s0.addr.key) ∧
    (ext.req.duplicates = false → ∀ s0 ∈ ext.srvInplace, si.addr.key ≠ s0.addr.key) ∧
    (∀ s0 ∈ ext.srvInplace, ext.req.distance ≤ distanceBetweenServices si s0) ∧
    filterMatches ext.filter si = true := by
  simp only [extOptFilter, Bool.and_eq_true, Bool.not_eq_true', any_eq_false,
    addrInfoEqual_iff, Bool.and_eq_false_iff, Bool.not_eq_false', decide_eq_true_eq, not_lt,
    and_assoc]
  cases ext.req.duplicates <;> simp

/-- **`grid_lb_iterator_next_set2` の組はさらに、使えない service を含まず、置かれた service から離れている。** -/
theorem nextSet2_chosen {ext : LbOptExt} (h : nextSet2 lb draws ext it = some (some l, it')) :
    ChosenExt ext l ∧ ∀ s ∈ l, s ∈ lb.services := by
  obtain ⟨hl, hmem⟩ := nextSet_chosen h
  have hfilter : ∀ s ∈ l, _ := fun s hs => extOptFilter_iff.mp (hl.accepts s hs).1
  refine ⟨⟨⟨hl.length_eq, fun s hs => ⟨(hfilter s hs).2.2.2, (hl.accepts s hs).2⟩, hl.distinct,
    hl.spaced⟩, fun s hs => (hfilter s hs).1, fun hd s hs => (hfilter s hs).2.1 hd,
    fun s hs => (hfilter s hs).2.2.1⟩, hmem⟩

/-- **location の揃った pool では `grid_lb_iterator_next_set` は落ちない。** -/
theorem nextSet_returns (hu : lb.Uniform) (draws : Nat → Draw) (opt : LbOpt) (it : LbIterator) :
    ∃ r, nextSet lb draws opt it = some r := by
  rw [nextSet]
  split
  · exact ⟨_, rfl⟩
  obtain ⟨s, hs⟩ : ∃ s, nextSetFrom lb draws opt ⟨it, 0, []⟩ = some s :=
    (searched_nextSetFrom polled_nil).returns hu
  exact ⟨_, congrArg (Option.map _) hs⟩

end

end Redcurrant.Metautils
