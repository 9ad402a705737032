import Redcurrant.Infra.IndexList
import Redcurrant.Sqliterepo.Version

/-!
# cache の base

`sqliterepo/cache.c` の slot と list への操作。slot は status ごとの双方向リストにつながれる。
-/

namespace Redcurrant.Sqliterepo

open Infra Metautils Std Function Option List

def codeUnavailable : Int := 503

def sqlxMaxCond : Nat := 64

/-- `enum sqlx_base_status_e` -/
inductive BaseStatus where
  | free
  | idle
  | idleHot
  | used
  | closing
  deriving DecidableEq

/-- `struct sqlx_base_s`。`status` の `none` はどの list にも無いこと。 -/
structure CacheBase (ι : Type) where
  name : Option Hashstr
  owner : Option ι
  lastUpdate : Int
  (heat countOpen : Nat)
  countWaiting : Int
  status : Option BaseStatus

/-- `struct sqlx_cache_s` の設定。`openTimeout` は ms、猶予は s。 -/
structure CacheConfig where
  openTimeout : Int := 15000
  maxWaiting : Int := 8
  heatThreshold : Nat := 1
  coolGraceDelay : Int := 30
  hotGraceDelay : Int := 300

/-- `struct sqlx_cache_s`。`link` は slot の中の `struct`。 -/
structure Cache (n : Nat) (ι : Type) where
  bases : Fin n → CacheBase ι
  link : Fin n → Link (Fin n)
  beacon : BaseStatus → Beacon (Fin n)
  basesByName : ExtTreeMap Hashstr (Fin n) Hashstr.quickCmp

namespace Cache

variable {n : Nat} {ι : Type}

/-! ## list の操作 -/

variable (c : Cache n ι)

def modify (i : Fin n) (f : CacheBase ι → CacheBase ι) : Cache n ι :=
  { c with bases := update c.bases i (f (c.bases i)) }

def sqlxRemove (i : Fin n) (st : BaseStatus) : Cache n ι :=
  { c with
    beacon := update c.beacon st ((c.beacon st).drop c.link i)
    link := unlink c.link i
    bases := update c.bases i { c.bases i with status := none } }

def sqlxUnshift (i : Fin n) (st : BaseStatus) (now : Int) : Cache n ι :=
  { c with
    beacon := update c.beacon st ((c.beacon st).push i)
    link := pushFront c.link (c.beacon st) i
    bases := update c.bases i { c.bases i with status := some st, lastUpdate := now } }

/-- `sqlx_base_remove_from_list` -/
def removeFromList (i : Fin n) : Cache n ι :=
  match (c.bases i).status with
  | none | some .closing => c
  | some st => c.sqlxRemove i st

/-- `sqlx_base_add_to_list` -/
def addToList (i : Fin n) (st : BaseStatus) (now : Int) : Cache n ι :=
  match st with
  | .closing => c.modify i ({ · with status := some .closing })
  | st => c.sqlxUnshift i st now

/-- `sqlx_base_move_to_list` -/
def moveToList (i : Fin n) (st : BaseStatus) (now : Int) : Cache n ι :=
  if (c.bases i).status = some st then c else (c.removeFromList i).addToList i st now

/-- `sqlx_cache_reset_bases` の loop の前。`g_malloc0` なので番号も 0。 -/
def zeroed (n : Nat) (ι : Type) : Cache n ι where
  bases _ := ⟨none, none, 0, 0, 0, 0, none⟩
  link i := ⟨some ⟨0, i.pos⟩, some ⟨0, i.pos⟩⟩
  beacon _ := ⟨none, none⟩
  basesByName := ∅

/-- `sqlx_cache_reset_bases`。loop は `bases_count - 1` から 1 まで。 -/
def resetBases (n : Nat) (ι : Type) (now : Int) : Cache n ι :=
  ((finRange n).filter fun i => i.val ≠ 0).foldr (fun i c => c.sqlxUnshift i .free now) (zeroed n ι)

/-! ## base の予約と失効 -/

/-- `sqlx_base_reserve` -/
def baseReserve (hs : Hashstr) (self : ι) (now : Int) : Except GError (Cache n ι × Fin n) :=
  match (c.beacon .free).first with
  | none => .error ⟨500, "too many bases"⟩
  | some i =>
    let c := c.modify i ({ · with name := some hs, countOpen := 1, owner := some self })
    let c := c.moveToList i .used now
    .ok ({ c with basesByName := c.basesByName.insert hs i }, i)

/-- `_expire_base` のうち、lock を離すまで -/
def expireBegin (i : Fin n) (now : Int) : Cache n ι := c.moveToList i .closing now

/-- `_expire_base` の lock を取り直した後。`hs` は離す前の名前。 -/
def expireEnd (i : Fin n) (hs : Option Hashstr) (now : Int) : Cache n ι :=
  let c := c.modify i
    ({ · with owner := none, name := none, countOpen := 0, lastUpdate := 0 })
  let c := c.moveToList i .free now
  match hs with
  | some hs => { c with basesByName := c.basesByName.erase hs }
  | none => c

/-- `_expire_specific_base` の検査。使われたばかりの base は残す。 -/
def graceOver (i : Fin n) (now : Option Int) (graceDelay : Int) : Bool :=
  match now with
  | none => true
  | some now => (c.bases i).lastUpdate ≤ now - graceDelay * 1000000

/-- `_expire_specific_base` のうち、lock を離すまで -/
def expireSpecificBase (i : Fin n) (self : ι) (stamp : Int) : Cache n ι :=
  ((c.modify i ({ · with owner := some self })).moveToList i .used stamp).expireBegin i stamp

/-- `sqlx_expire_first_idle_base` が選ぶ base -/
def firstIdleBase (cfg : CacheConfig) (now : Option Int) : Option (Fin n) :=
  ((c.beacon .idle).last.filter fun i => c.graceOver i now cfg.coolGraceDelay).or
    ((c.beacon .idleHot).last.filter fun i => c.graceOver i now cfg.hotGraceDelay)

/-- `sqlx_cache_open_and_lock_base` の loop の 1 回の結果 -/
inductive Attempt (n : Nat) (ι : Type) where
  /-- slot を得て返る -/
  | opened (c : Cache n ι) (i : Fin n)
  /-- 待つ thread が多すぎるので、error で返る -/
  | refused (e : GError) (i : Fin n)
  /-- `base->cond` で待つ。`inUse` は使われていること。 -/
  | wait (i : Fin n) (inUse : Bool)
  /-- 空きが無いので、idle の base を 1 つ失効させて `retry` に戻る -/
  | expire (i : Fin n)
  /-- 空きも idle の base も無く、そのまま `retry` に戻る -/
  | again
  /-- `g_assert_not_reached` -/
  | abort

/-- `sqlx_cache_open_and_lock_base` の `retry` から次の `retry`、待機、戻りまで -/
def openAttempt [DecidableEq ι] (c : Cache n ι) (cfg : CacheConfig) (hs : Hashstr) (self : ι)
    (now : Int) : Attempt n ι :=
  match c.basesByName[hs]? with
  | none =>
    match c.baseReserve hs self now with
    | .ok (c, i) => .opened c i
    | .error _ =>
      match c.firstIdleBase cfg none with
      | some i => .expire i
      | none => .again
  | some i =>
    match (c.bases i).status with
    | none | some .free => .abort
    | some .idle | some .idleHot =>
      let c := c.moveToList i .used now
      .opened (c.modify i fun b => { b with countOpen := b.countOpen + 1, owner := some self }) i
    | some .used =>
      if (c.bases i).owner = some self then
        .opened (c.modify i fun b => { b with owner := some self, countOpen := b.countOpen + 1 }) i
      else if 0 < cfg.maxWaiting ∧ cfg.maxWaiting ≤ (c.bases i).countWaiting then
        .refused ⟨codeUnavailable, "database currently in use by another request, and " ++
          toString (c.bases i).countWaiting ++ " others threads already waiting"⟩ i
      else .wait i true
    | some .closing => .wait i false

/-- 条件変数 `base->cond` の番号 -/
def cond (i : Fin n) : Nat := i.val % sqlxMaxCond

/-! ## 不変条件 -/

/-- 4 つの list がそれぞれの status の slot を並べている -/
def ListsOk : Prop :=
  ∀ st, st ≠ .closing →
    ∃ l, Chain c.link (c.beacon st) l ∧ ∀ i, i ∈ l ↔ (c.bases i).status = some st

end Cache

/-- status と、名前・owner・open 数が合っている -/
def CacheBase.Ok {ι : Type} (b : CacheBase ι) : Prop :=
  match b.status with
  | none | some .free => b.name = none ∧ b.owner = none ∧ b.countOpen = 0
  | some .idle | some .idleHot => b.name.isSome ∧ b.owner = none ∧ b.countOpen = 0
  | some .used => b.name.isSome ∧ b.owner.isSome ∧ 0 < b.countOpen
  | some .closing => b.name.isSome ∧ b.owner.isSome ∧ b.countOpen = 0

namespace Cache

variable {n : Nat} {ι : Type}

structure Ok (c : Cache n ι) : Prop where
  lists : c.ListsOk
  base : ∀ i, (c.bases i).Ok
  named : ∀ hs i, c.basesByName[hs]? = some i ↔ (c.bases i).name = some hs

/-! ## list の操作は list を保つ -/

@[simp] theorem modify_basesByName (c : Cache n ι) (i : Fin n) (f : CacheBase ι → CacheBase ι) :
    (c.modify i f).basesByName = c.basesByName := rfl

@[simp] theorem modify_bases_self (c : Cache n ι) (i : Fin n) (f : CacheBase ι → CacheBase ι) :
    (c.modify i f).bases i = f (c.bases i) := update_self ..

variable {c c' : Cache n ι} {i : Fin n} {f : CacheBase ι → CacheBase ι} {st : BaseStatus}
  {b : CacheBase ι} {hs : Hashstr}

theorem modify_bases_of_ne {j : Fin n} (h : j ≠ i) :
    (c.modify i f).bases j = c.bases j := update_of_ne h ..

theorem modify_status (c : Cache n ι) (i j : Fin n) (hf : ∀ b, (f b).status = b.status) :
    ((c.modify i f).bases j).status = (c.bases j).status := by
  by_cases hj : j = i
  · rw [hj, modify_bases_self, hf]
  · rw [modify_bases_of_ne hj]

@[simp] theorem moveToList_basesByName (c : Cache n ι) (i : Fin n) (st : BaseStatus) (now : Int) :
    (c.moveToList i st now).basesByName = c.basesByName := by
  unfold moveToList removeFromList addToList
  split
  · rfl
  · cases st <;> (dsimp only; split <;> rfl)

theorem moveToList_bases (c : Cache n ι) (i : Fin n) (st : BaseStatus) (now : Int) :
    ∃ stamp, (c.moveToList i st now).bases =
      update c.bases i { c.bases i with status := some st, lastUpdate := stamp } := by
  unfold moveToList
  split
  next h =>
    refine ⟨(c.bases i).lastUpdate, ?_⟩
    rw [← h, update_eq_self]
  next =>
    have hrem : (c.removeFromList i).bases =
        update c.bases i { c.bases i with status := ((c.removeFromList i).bases i).status } := by
      unfold removeFromList
      split
      · rw [update_eq_self]
      · rw [update_eq_self]
      · simp [sqlxRemove]
    unfold addToList
    split
    · refine ⟨(c.bases i).lastUpdate, ?_⟩
      rw [modify, hrem]
      simp
    refine ⟨now, ?_⟩
    rw [sqlxUnshift, hrem]
    simp

section

variable (h : c.ListsOk)
include h

theorem ListsOk.modify (hf : (f (c.bases i)).status = (c.bases i).status) :
    (c.modify i f).ListsOk := by
  intro st hst
  obtain ⟨l, hl, hm⟩ := h st hst
  refine ⟨l, hl, fun j => (hm j).trans ?_⟩
  by_cases hj : j = i
  · subst hj
    rw [modify_bases_self, hf]
  · rw [modify_bases_of_ne hj]

theorem ListsOk.removeFromList (i : Fin n) : (c.removeFromList i).ListsOk ∧
    (((c.removeFromList i).bases i).status = none ∨
      ((c.removeFromList i).bases i).status = some .closing) := by
  unfold Cache.removeFromList
  split
  next hs => exact ⟨h, .inl hs⟩
  next hs => exact ⟨h, .inr hs⟩
  next st hne hs =>
    refine ⟨fun st' hst' => ?_, .inl (by simp [sqlxRemove])⟩
    obtain ⟨l, hl, hm⟩ := h st hne
    have hi : i ∈ l := (hm i).mpr hs
    by_cases hst : st' = st
    · subst hst
      refine ⟨l.erase i, by simpa [sqlxRemove] using hl.unlink hi, fun j => ?_⟩
      rw [hl.nodup.mem_erase_iff, hm]
      by_cases hj : j = i
      · simp [sqlxRemove, hj]
      · simp [sqlxRemove, hj]
    -- 別の list の slot の番号は `unlink` に触れられない。
    obtain ⟨l', hl', hm'⟩ := h st' hst'
    have hout : ∀ j ∈ l', j ∉ l := fun j hj' hj =>
      hst (some.inj (((hm' j).mp hj').symm.trans ((hm j).mp hj)))
    refine ⟨l', ?_, fun j => (hm' j).trans ?_⟩
    · have hlink : ∀ j ∈ l', (c.sqlxRemove i st).link j = c.link j :=
        fun j hj => hl.unlink_frame hi (hout j hj)
      simpa [sqlxRemove, update_of_ne hst] using hl'.congr hlink
    by_cases hj : j = i
    · subst hj
      simp [sqlxRemove, hs, Ne.symm hst]
    · simp [sqlxRemove, hj]

theorem ListsOk.addToList (st : BaseStatus) (now : Int)
    (hi : (c.bases i).status = none ∨ (c.bases i).status = some .closing) :
    (c.addToList i st now).ListsOk := by
  have hout : ∀ {st'} {l : List (Fin n)}, st' ≠ .closing →
      (∀ j, j ∈ l ↔ (c.bases j).status = some st') → i ∉ l := by
    intro st' l hst' hm hmem
    rw [hm] at hmem
    rcases hi with hi | hi
    · simp [hi] at hmem
    · exact hst' (some.inj (hmem.symm.trans hi))
  -- `closing` には list が無く、status だけが変わる。
  unfold Cache.addToList
  split
  next =>
    intro st' hst'
    obtain ⟨l, hl, hm⟩ := h st' hst'
    refine ⟨l, hl, fun j => ?_⟩
    by_cases hj : j = i
    · subst hj
      simp [hout hst' hm, Ne.symm hst']
    · rw [hm, modify_bases_of_ne hj]
  next hne =>
    intro st' hst'
    obtain ⟨l, hl, hm⟩ := h st hne
    have hil := hout hne hm
    by_cases hst : st' = st
    · subst hst
      refine ⟨i :: l, by simpa [sqlxUnshift] using hl.pushFront hil, fun j => ?_⟩
      by_cases hj : j = i
      · simp [sqlxUnshift, hj]
      · simp [sqlxUnshift, hj, hm]
    obtain ⟨l', hl', hm'⟩ := h st' hst'
    have hil' := hout hst' hm'
    refine ⟨l', ?_, fun j => ?_⟩
    · have hlink : ∀ j ∈ l', (c.sqlxUnshift i st now).link j = c.link j := fun j hj =>
        hl.pushFront_frame (ne_of_mem_of_not_mem hj hil') fun hjl =>
          hst (some.inj (((hm' j).mp hj).symm.trans ((hm j).mp hjl)))
      simpa [sqlxUnshift, update_of_ne hst] using hl'.congr hlink
    by_cases hj : j = i
    · subst hj
      simp [sqlxUnshift, hil', Ne.symm hst]
    · simp [sqlxUnshift, hj, hm']

/-- **`sqlx_base_move_to_list` は 4 つの list を保つ。** -/
theorem ListsOk.moveToList (i : Fin n) (st : BaseStatus) (now : Int) :
    (c.moveToList i st now).ListsOk := by
  unfold Cache.moveToList
  split
  · exact h
  · obtain ⟨hr, hi⟩ := h.removeFromList i
    exact hr.addToList st now hi

variable (hst : st ≠ .closing)
include hst

theorem ListsOk.none_of_first (hb : (c.beacon st).first = none) (i : Fin n) :
    (c.bases i).status ≠ some st := by
  obtain ⟨l, hl, hm⟩ := h st hst
  intro hi
  have hmem := (hm i).mpr hi
  rw [hl.eq_nil_of_first hb] at hmem
  exact not_mem_nil hmem

theorem ListsOk.none_of_last (hb : (c.beacon st).last = none) (i : Fin n) :
    (c.bases i).status ≠ some st := by
  obtain ⟨l, hl, hm⟩ := h st hst
  intro hi
  have hmem := (hm i).mpr hi
  rw [hl.eq_nil_of_last hb] at hmem
  exact not_mem_nil hmem

theorem ListsOk.status_of_first (hb : (c.beacon st).first = some i) :
    (c.bases i).status = some st := by
  obtain ⟨l, hl, hm⟩ := h st hst
  exact (hm i).mp (hl.first_mem hb)

theorem ListsOk.status_of_last (hb : (c.beacon st).last = some i) :
    (c.bases i).status = some st := by
  obtain ⟨l, hl, hm⟩ := h st hst
  exact (hm i).mp (hl.last_mem hb)

end

/-! ## slot の書き換え -/

/-- slot の内容だけが `b` に変わり、名前の木は変わらない -/
structure Rewritten (c c' : Cache n ι) (i : Fin n) (b : CacheBase ι) : Prop where
  lists : c.ListsOk → c'.ListsOk
  index : c'.basesByName = c.basesByName
  bases : c'.bases = update c.bases i b

theorem Rewritten.self (h : Rewritten c c' i b) : c'.bases i = b := by
  rw [h.bases, update_self]

theorem Rewritten.trans {c'' : Cache n ι} {b' : CacheBase ι} (h : Rewritten c c' i b)
    (h' : Rewritten c' c'' i b') : Rewritten c c'' i b' :=
  ⟨h'.lists ∘ h.lists, h'.index.trans h.index, by
    rw [h'.bases, h.bases, update_idem]⟩

section

variable (c : Cache n ι) (i : Fin n)

theorem rewritten_modify (f : CacheBase ι → CacheBase ι)
    (hf : (f (c.bases i)).status = (c.bases i).status) :
    Rewritten c (c.modify i f) i (f (c.bases i)) :=
  ⟨fun h => h.modify hf, rfl, rfl⟩

theorem rewritten_moveToList (st : BaseStatus) (now : Int) :
    ∃ stamp, Rewritten c (c.moveToList i st now) i
      { c.bases i with status := some st, lastUpdate := stamp } := by
  obtain ⟨stamp, h⟩ := c.moveToList_bases i st now
  exact ⟨stamp, fun hl => hl.moveToList i st now, moveToList_basesByName .., h⟩

/-- 失効の前半。idle の base はその thread の `closing` になる。 -/
theorem rewritten_expireSpecificBase (self : ι) (now : Int) :
    ∃ stamp, Rewritten c (c.expireSpecificBase i self now) i
      { c.bases i with owner := some self, status := some .closing, lastUpdate := stamp } := by
  have hown := c.rewritten_modify i ({ · with owner := some self }) rfl
  obtain ⟨_, hused⟩ := rewritten_moveToList _ i .used now
  obtain ⟨stamp, hclosing⟩ := rewritten_moveToList _ i .closing now
  have h := (hown.trans hused).trans hclosing
  rw [hused.self, hown.self] at h
  exact ⟨stamp, h⟩

end

section

variable (h : c.Ok)
include h

theorem Ok.of_update (hl : c'.ListsOk) (hbases : c'.bases = update c.bases i b) (hb : b.Ok)
    (hself : ∀ hs : Hashstr, c'.basesByName[hs]? = some i ↔ b.name = some hs)
    (hother : ∀ (hs : Hashstr) (j : Fin n), j ≠ i →
      (c'.basesByName[hs]? = some j ↔ c.basesByName[hs]? = some j)) : c'.Ok := by
  refine ⟨hl, fun j => ?_, fun hs j => ?_⟩
  · rw [hbases]
    by_cases hj : j = i
    · rwa [hj, update_self]
    · rw [update_of_ne hj]
      exact h.base j
  rw [hbases]
  by_cases hj : j = i
  · rw [hj, update_self]
    exact hself hs
  · rw [update_of_ne hj, ← h.named]
    exact hother hs j hj

theorem Ok.rewritten (hr : Rewritten c c' i b) (hname : b.name = (c.bases i).name) (hb : b.Ok) :
    c'.Ok := by
  refine h.of_update (hr.lists h.lists) hr.bases hb (fun hs => ?_) fun hs j _ => ?_
  · rw [hr.index, h.named, hname]
  · rw [hr.index]

/-! ## 予約と失効の後半 -/

theorem baseReserve_eq_ok {self : ι} {now : Int} (hnew : c.basesByName[hs]? = none)
    (he : c.baseReserve hs self now = .ok (c', i)) :
    (c.beacon .free).first = some i ∧ (c.bases i).status = some .free ∧ c'.Ok ∧
      c'.basesByName = c.basesByName.insert hs i ∧
      ∃ stamp, c'.bases = update c.bases i { c.bases i with
          name := some hs, countOpen := 1, owner := some self, status := some .used,
          lastUpdate := stamp } := by
  unfold baseReserve at he
  split at he
  next => cases he
  next j hj =>
    obtain ⟨rfl, rfl⟩ := Prod.mk.inj (Except.ok.inj he)
    have hfree := h.lists.status_of_first (by decide) hj
    have hold := h.base j
    rw [CacheBase.Ok, hfree] at hold
    have hset := c.rewritten_modify j
      ({ · with name := some hs, countOpen := 1, owner := some self }) rfl
    obtain ⟨stamp, hmove⟩ := rewritten_moveToList _ j .used now
    have hr := hset.trans hmove
    rw [hset.self] at hr
    refine ⟨hj, hfree, h.of_update (hr.lists h.lists) hr.bases ?_ (fun hs' => ?_)
      (fun hs' k hk => ?_), ?_, stamp, hr.bases⟩
    · exact ⟨rfl, rfl, Nat.one_pos⟩
    · simp only [ExtTreeMap.getElem?_insert, Hashstr.quickCmp_eq_eq]
      split
      next e => simp [e]
      next e => simp [h.named, hold.1, e]
    · rw [hr.index]
      simp only [ExtTreeMap.getElem?_insert, Hashstr.quickCmp_eq_eq]
      split
      next e =>
        subst e
        simp [hnew, Ne.symm hk]
      next => rfl
    · rw [← hr.index]

theorem baseReserve_eq_error {self : ι} {now : Int} {e : GError}
    (he : c.baseReserve hs self now = .error e) (i : Fin n) : (c.bases i).status ≠ some .free := by
  unfold baseReserve at he
  split at he
  next hb => exact h.lists.none_of_first (by decide) hb i
  next => cases he

theorem expireEnd_spec {hs : Option Hashstr} (now : Int) (hname : (c.bases i).name = hs)
    (hcl : (c.bases i).status = some .closing) :
    (c.expireEnd i hs now).Ok ∧
      (∃ hs', hs = some hs' ∧ (c.expireEnd i hs now).basesByName = c.basesByName.erase hs') ∧
      ∃ stamp, (c.expireEnd i hs now).bases = update c.bases i { c.bases i with
          owner := none, name := none, countOpen := 0, status := some .free,
          lastUpdate := stamp } := by
  have hold := h.base i
  rw [CacheBase.Ok, hcl] at hold
  obtain ⟨hs', hsome⟩ := isSome_iff_exists.mp hold.1
  obtain rfl : hs = some hs' := hname.symm.trans hsome
  have hset := c.rewritten_modify i
    ({ · with owner := none, name := none, countOpen := 0, lastUpdate := 0 }) rfl
  obtain ⟨stamp, hmove⟩ := rewritten_moveToList _ i .free now
  have hr := hset.trans hmove
  rw [hset.self] at hr
  have hbases : (c.expireEnd i (some hs') now).bases = _ := hr.bases
  have hidx : (c.expireEnd i (some hs') now).basesByName = c.basesByName.erase hs' := by
    rw [expireEnd, moveToList_basesByName, modify_basesByName]
  refine ⟨h.of_update (hr.lists h.lists) hbases ?_ (fun hs'' => ?_) (fun hs'' k hk => ?_),
    ⟨hs', rfl, hidx⟩, stamp, hbases⟩
  · exact ⟨rfl, rfl, rfl⟩
  · rw [hidx]
    simp only [ExtTreeMap.getElem?_erase, Hashstr.quickCmp_eq_eq]
    split
    next => simp
    next e => simp [h.named, hsome, e]
  rw [hidx]
  simp only [ExtTreeMap.getElem?_erase, Hashstr.quickCmp_eq_eq]
  split
  next e =>
    -- 消える名前を持つ slot は `i` だけである。
    subst e
    have hi := (h.named hs' i).mpr hsome
    simp only [reduceCtorEq, false_iff]
    intro hkn
    exact hk (some.inj (hkn.symm.trans hi))
  next => rfl

theorem firstIdleBase_eq_some {cfg : CacheConfig} {now : Option Int}
    (he : c.firstIdleBase cfg now = some i) :
    (c.bases i).status = some .idle ∨ (c.bases i).status = some .idleHot := by
  rcases or_eq_some_iff.mp he with he | ⟨-, he⟩
  · exact .inl (h.lists.status_of_last (by decide) (eq_some_of_filter_eq_some he))
  · exact .inr (h.lists.status_of_last (by decide) (eq_some_of_filter_eq_some he))

theorem firstIdleBase_eq_none {cfg : CacheConfig} (he : c.firstIdleBase cfg none = none)
    (i : Fin n) : (c.bases i).status ≠ some .idle ∧ (c.bases i).status ≠ some .idleHot := by
  simp only [firstIdleBase, graceOver, or_eq_none_iff, filter_eq_none_iff,
    not_true_eq_false, imp_false] at he
  rw [← eq_none_iff_forall_ne_some, ← eq_none_iff_forall_ne_some] at he
  exact ⟨h.lists.none_of_last (by decide) he.1 i, h.lists.none_of_last (by decide) he.2 i⟩

/-! ## open の 1 回 -/

/-- 使われているか閉じられる base を待って眠るか -/
def sleepsOn (c : Cache n ι) (cfg : CacheConfig) (i : Fin n) (self : ι) : Prop :=
  (c.bases i).status = some .closing ∨
    (c.bases i).status = some .used ∧ (c.bases i).owner ≠ some self ∧
      ¬ (0 < cfg.maxWaiting ∧ cfg.maxWaiting ≤ (c.bases i).countWaiting)

/-- slot を得た cache。`t` が `hs` として 1 回多く開いている。 -/
structure Opened (c c' : Cache n ι) (hs : Hashstr) (t : ι) (i : Fin n) : Prop where
  ok : c'.Ok
  frame : ∀ j ≠ i, c'.bases j = c.bases j
  status : (c'.bases i).status = some .used
  owner : (c'.bases i).owner = some t
  name : (c'.bases i).name = some hs
  countOpen : (c'.bases i).countOpen = (c.bases i).countOpen + 1
  again : (c.bases i).status = some .used → (c.bases i).owner = some t
  origin : c.basesByName[hs]? = some i ∧ (c.bases i).status ≠ some .closing ∨
    c.basesByName[hs]? = none ∧ (c.bases i).status = some .free ∧ (c.beacon .free).first = some i

/-- open の 1 回がその前の cache について言うこと -/
def Attempt.Spec (c : Cache n ι) (cfg : CacheConfig) (hs : Hashstr) (self : ι) : Attempt n ι → Prop
  | .opened c' i => Opened c c' hs self i
  | .refused _ i => c.basesByName[hs]? = some i ∧ (c.bases i).status = some .used
  | .wait i inUse => c.basesByName[hs]? = some i ∧ c.sleepsOn cfg i self ∧
      (c.bases i).status = some (if inUse then .used else .closing)
  | .expire i => c.basesByName[hs]? = none ∧
      ((c.bases i).status = some .idle ∨ (c.bases i).status = some .idleHot) ∧
      ∀ j, (c.bases j).status ≠ some .free
  | .again => c.basesByName[hs]? = none ∧ ∀ i, (c.bases i).status ≠ some .free ∧
      (c.bases i).status ≠ some .idle ∧ (c.bases i).status ≠ some .idleHot
  | .abort => False

theorem opened_of_rewritten {self : ι} (hi : c.basesByName[hs]? = some i)
    (hr : Rewritten c c' i b) (hname : b.name = (c.bases i).name) (hst : b.status = some .used)
    (hown : b.owner = some self) (hcount : b.countOpen = (c.bases i).countOpen + 1)
    (hcl : (c.bases i).status ≠ some .closing)
    (hagain : (c.bases i).status = some .used → (c.bases i).owner = some self) :
    Opened c c' hs self i := by
  have hn : b.name = some hs := hname.trans ((h.named hs i).mp hi)
  have hb : b.Ok := by
    rw [CacheBase.Ok, hst]
    exact ⟨by rw [hn]; rfl, by rw [hown]; rfl, by omega⟩
  refine ⟨h.rewritten hr hname hb, fun j hj => ?_, ?_, ?_, ?_, ?_, hagain, .inl ⟨hi, hcl⟩⟩
  · rw [hr.bases, update_of_ne hj]
  all_goals rwa [hr.self]

theorem opened_baseReserve {self : ι} {now : Int} (hnew : c.basesByName[hs]? = none)
    (he : c.baseReserve hs self now = .ok (c', i)) : Opened c c' hs self i := by
  obtain ⟨hfirst, hfree, hok, -, stamp, hb⟩ := baseReserve_eq_ok h hnew he
  have hold := h.base i
  rw [CacheBase.Ok, hfree] at hold
  refine ⟨hok, fun j hj => by rw [hb, update_of_ne hj], ?_, ?_, ?_, ?_,
    fun hu => by simp [hfree] at hu, .inr ⟨hnew, hfree, hfirst⟩⟩
  all_goals rw [hb, update_self]
  rw [hold.2.2]

theorem opened_idle (self : ι) (now : Int) (hi : c.basesByName[hs]? = some i)
    (hst : (c.bases i).status = some .idle ∨ (c.bases i).status = some .idleHot) :
    Opened c ((c.moveToList i .used now).modify i fun b =>
      { b with countOpen := b.countOpen + 1, owner := some self }) hs self i := by
  obtain ⟨stamp, hmove⟩ := c.rewritten_moveToList i .used now
  have hset := rewritten_modify (c.moveToList i .used now) i
    (fun b => { b with countOpen := b.countOpen + 1, owner := some self }) rfl
  have hr := hmove.trans hset
  rw [hmove.self] at hr
  refine opened_of_rewritten h hi hr rfl rfl rfl rfl ?_ ?_
  all_goals rcases hst with hst | hst <;> simp [hst]

theorem openAttempt_spec [DecidableEq ι] (cfg : CacheConfig) (hs : Hashstr) (self : ι)
    (now : Int) : (c.openAttempt cfg hs self now).Spec c cfg hs self := by
  unfold openAttempt
  split
  next hnew =>
    split
    next c' i he => exact opened_baseReserve h hnew he
    next e he =>
      split
      next i hi => exact ⟨hnew, firstIdleBase_eq_some h hi, baseReserve_eq_error h he⟩
      next hi => exact ⟨hnew, fun i => ⟨baseReserve_eq_error h he i, firstIdleBase_eq_none h hi i⟩⟩
  next i hi =>
    -- 木にある名前の base は free でも初期化前でもない。
    have hold := h.base i
    have hname := (h.named hs i).mp hi
    split
    next hst =>
      rw [CacheBase.Ok, hst, hname] at hold
      simp at hold
    next hst =>
      rw [CacheBase.Ok, hst, hname] at hold
      simp at hold
    next hst => exact opened_idle h self now hi (.inl hst)
    next hst => exact opened_idle h self now hi (.inr hst)
    next hst =>
      split
      next hown =>
        have hr := c.rewritten_modify i
          (fun b => { b with owner := some self, countOpen := b.countOpen + 1 }) rfl
        exact opened_of_rewritten h hi hr rfl hst rfl rfl (by simp [hst]) fun _ => hown
      next hown =>
        split
        next => exact ⟨hi, hst⟩
        next hmax => exact ⟨hi, .inr ⟨hst, hown, hmax⟩, hst⟩
    next hst => exact ⟨hi, .inl hst, hst⟩

end

/-! ## 始めの cache -/

theorem ok_zeroed (n : Nat) (ι : Type) : (zeroed n ι).Ok where
  lists st _ := ⟨[], chain_nil, fun i => by simp [zeroed]⟩
  base i := ⟨rfl, rfl, rfl⟩
  named hs i := by simp [zeroed]

theorem resetBases_spec (n : Nat) (ι : Type) (now : Int) : (resetBases n ι now).Ok ∧
    ∀ i, ((resetBases n ι now).bases i).status = if i.val ≠ 0 then some .free else none := by
  -- loop がまだ来ていない slot はどの list にも無い。
  have hloop : ∀ l : List (Fin n), l.Nodup →
      let c := l.foldr (fun i c => c.sqlxUnshift i .free now) (zeroed n ι)
      c.Ok ∧ ∀ i, (c.bases i).status = if i ∈ l then some .free else none := by
    intro l
    induction l with
    | nil => exact fun _ => ⟨ok_zeroed n ι, fun _ => rfl⟩
    | cons i l ih =>
      intro hl
      obtain ⟨hi, hl⟩ := nodup_cons.mp hl
      obtain ⟨hok, hst⟩ := ih hl
      have hnone := hst i
      rw [if_neg hi] at hnone
      have hr : Rewritten _ _ i _ := ⟨fun h => h.addToList .free now (.inl hnone), rfl, rfl⟩
      have hbase := hok.base i
      rw [CacheBase.Ok, hnone] at hbase
      refine ⟨hok.rewritten hr rfl hbase, fun j => ?_⟩
      by_cases hj : j = i
      · subst hj
        simp [sqlxUnshift]
      · simp only [mem_cons, hj, false_or]
        exact (congrArg CacheBase.status (update_of_ne hj _ _)).trans (hst j)
  obtain ⟨hok, hst⟩ := hloop ((finRange n).filter fun i => i.val ≠ 0) ((nodup_finRange n).filter _)
  refine ⟨hok, fun i => (hst i).trans ?_⟩
  simp

end Cache

end Redcurrant.Sqliterepo
