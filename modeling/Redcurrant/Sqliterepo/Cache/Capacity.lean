import Mathlib.Data.Fintype.Card
import Mathlib.SetTheory.Cardinal.Finite
import Redcurrant.Sqliterepo.Cache.Opening

/-!
# cache に開いておける名前の数

`sqlx_cache_reset_bases` は 0 番の slot を free の list に入れない（`open_new_name_iff`）。
-/

namespace Redcurrant.Sqliterepo

open Infra Metautils Std Function Option List Finset Cache Finset

namespace CacheSys

variable {n : Nat} {ι : Type} [DecidableEq ι] {cfg : CacheConfig} {s s' : CacheSys n ι}

/-! ## slot の行き先 -/

/-- どの list にも入らないのは 0 番の slot だけで、閉じられている途中の slot には閉じている thread がいる -/
structure Accounted (s : CacheSys n ι) : Prop where
  empty : ∀ i, (s.cache.bases i).status = none ↔ i.val = 0
  closing : ∀ i, (s.cache.bases i).status = some .closing → ∃ t hs k, s.procs t = .closing i hs k

variable {t : ι} {c : Cache n ι} {lock : Option ι} {pc : CachePc n} {i : Fin n}

section

variable (h : s.Accounted)
include h

theorem Accounted.put (ht : (s.procs t).isClosing = false ∨ ∃ hs k, s.procs t = .closing i hs k)
    (hb : ∀ j ≠ i, (c.bases j).status = (s.cache.bases j).status)
    (hi : (s.cache.bases i).status ≠ none) (hi' : (c.bases i).status ≠ none)
    (hcl : (c.bases i).status = some .closing → ∃ hs k, pc = .closing i hs k) :
    (s.put t c lock pc).Accounted := by
  refine ⟨fun j => ?_, fun j hj => ?_⟩
  · by_cases hji : j = i
    · subst hji
      rw [← h.empty]
      exact iff_of_false hi' hi
    · rw [put_cache, hb j hji, h.empty]
  rw [put_cache] at hj
  by_cases hji : j = i
  · subst hji
    obtain ⟨hs, k, rfl⟩ := hcl hj
    exact ⟨t, hs, k, update_self ..⟩
  rw [hb j hji] at hj
  obtain ⟨u, hs, k, hu⟩ := h.closing j hj
  -- `j` を閉じている thread は `t` ではない
  have hne : u ≠ t := by
    rintro rfl
    rcases ht with ht | ⟨hs', k', ht⟩
    · rw [hu] at ht
      cases ht
    · exact hji (CachePc.closing.inj (hu.symm.trans ht)).1
  exact ⟨u, hs, k, (update_of_ne hne ..).trans hu⟩

theorem Accounted.put_same (ht : (s.procs t).isClosing = false)
    (hb : ∀ j, (c.bases j).status = (s.cache.bases j).status) : (s.put t c lock pc).Accounted := by
  refine ⟨fun j => by rw [put_cache, hb, h.empty], fun j hj => ?_⟩
  rw [put_cache, hb] at hj
  obtain ⟨u, hs, k, hu⟩ := h.closing j hj
  have hne : u ≠ t := by
    rintro rfl
    rw [hu] at ht
    cases ht
  exact ⟨u, hs, k, (update_of_ne hne ..).trans hu⟩

omit h in
theorem Accounted.leave_of_put {r : CacheReply n} (h : (s.put t c none .out).Accounted) :
    (s.leave t c r).Accounted := ⟨h.empty, h.closing⟩

theorem Accounted.signal {pick : ι} (hs : s.signal i pick = some s') : s'.Accounted := by
  obtain ⟨q, -, rfl⟩ := signal_eq_some hs
  exact ⟨h.empty, h.closing⟩

theorem Accounted.rewritten {b : CacheBase ι} {st st' : BaseStatus}
    (ht : (s.procs t).isClosing = false ∨ ∃ hs k, s.procs t = .closing i hs k)
    (hb : c.bases = Function.update s.cache.bases i b) (hi : (s.cache.bases i).status = some st)
    (hst : b.status = some st') (hcl : st' = .closing → ∃ hs k, pc = .closing i hs k) :
    (s.put t c lock pc).Accounted := by
  refine h.put ht (fun j hj => ?_) (by rw [hi]; nofun) ?_ fun hc => hcl ?_
  · rw [hb, update_of_ne hj]
  · rw [hb, update_self, hst]
    nofun
  · rw [hb, update_self, hst] at hc
    exact some.inj hc

theorem Accounted.awake {inUse : Bool} (ht : (s.procs t).isClosing = false) :
    (s.put t (CacheSys.awake s.cache i inUse) lock pc).Accounted := by
  exact h.put_same ht fun j => awake_status s.cache i j inUse

theorem Accounted.expire {now : Int} {k : AfterExpire} (ht : (s.procs t).isClosing = false)
    (hidle : (s.cache.bases i).status = some .idle ∨ (s.cache.bases i).status = some .idleHot) :
    (s.window t (s.cache.expireSpecificBase i t now) i k).Accounted := by
  obtain ⟨stamp, hr⟩ := s.cache.rewritten_expireSpecificBase i t now
  rcases hidle with hi | hi
  all_goals exact h.rewritten (.inl ht) hr.bases hi rfl fun _ => ⟨_, _, rfl⟩

/-! ## 1 step -/

theorem Accounted.step {l : CacheLabel ι} (hok : s.Ok) (hstep : step cfg s l = some s') :
    s'.Accounted := by
  cases hok.step_acts hstep with
  | enter ht _ he => exact he ▸ h.put_same (by rw [ht]; rfl) fun _ => rfl
  | badId he | stray he => exact he ▸ ⟨h.empty, h.closing⟩
  | @close t _ _ _ x i c b pc r ht hmem hc hs =>
    have hput : (s.put t c none pc).Accounted := by
      refine h.put (i := i) (.inl (by rw [ht]; rfl)) (fun j hj => ?_) ?_ ?_ fun hcl => ?_
      · rw [hc.cache.bases, update_of_ne hj]
      · rw [((hok.slot i).held x hmem).1]
        exact some_ne_none _
      · rw [hc.cache.self]
        rcases hc.released with ⟨-, hst, -⟩ | ⟨-, hst | hst, -⟩ | ⟨-, hst, -⟩ <;> simp [hst]
      · rw [hc.cache.self] at hcl
        exact ⟨_, _, (hc.pc.resolve_left fun hn => hn.2 hcl).1⟩
    refine Accounted.signal ?_ hs
    exact ⟨hput.empty, hput.closing⟩
  | @grant t _ _ hs c i ht ho hsig =>
    have hi : (s.cache.bases i).status ≠ none := by
      rcases ho.origin with ⟨hidx, -⟩ | ⟨-, hfree, -⟩
      · have hbase := hok.cache.base i
        intro hnone
        rw [CacheBase.Ok, hnone, (hok.cache.named hs i).mp hidx] at hbase
        cases hbase.1
      · rw [hfree]
        exact some_ne_none _
    have hput : (s.put t c none .out).Accounted :=
      h.put (.inl (by rw [ht]; rfl)) (fun j hj => congrArg _ (ho.frame j hj)) hi
        (by simp [ho.status]) (by simp [ho.status])
    exact Accounted.signal (s := s.grant t c hs i) ⟨hput.empty, hput.closing⟩ hsig
  | refuse ht _ _ hs =>
    exact (Accounted.leave_of_put (h.put_same (by rw [ht]; rfl) fun _ => rfl)).signal hs
  | @sleep t _ _ hs i inUse ht _ _ _ he =>
    have hput : (s.put t (if inUse then
        s.cache.modify i fun b => { b with countWaiting := b.countWaiting + 1 } else s.cache) none
        (.waiting hs i inUse)).Accounted := by
      refine h.put_same (by rw [ht]; rfl) fun j => ?_
      split
      · exact modify_status _ _ _ (by intro b; rfl)
      · rfl
    exact he ▸ ⟨hput.empty, hput.closing⟩
  | again he => exact he ▸ h
  | swept ht he => exact he ▸ (h.put_same (by rw [ht]; rfl) fun _ => rfl).leave_of_put
  | expire hk hidle hs =>
    refine (h.expire ?_ hidle).signal hs
    rcases hk with ⟨want, ht, -⟩ | ⟨limit, nb, ht, -⟩ <;> (rw [ht]; rfl)
  | @expired t _ now i nm k lock pc r ht _ _ hs =>
    obtain ⟨hst, -, hname⟩ := (hok.slot i).closing t nm k ht
    obtain ⟨-, -, stamp, hb⟩ := expireEnd_spec hok.cache now hname hst
    have hput : (s.put t (s.cache.expireEnd i nm now) lock pc).Accounted :=
      h.rewritten (.inr ⟨nm, k, ht⟩) hb hst rfl (by simp)
    refine Accounted.signal ?_ hs
    exact ⟨hput.empty, hput.closing⟩
  | woken ht _ he => exact he ▸ h.awake (by rw [ht]; rfl)
  | gaveUp ht hs => exact (h.awake (by rw [ht]; rfl)).leave_of_put.signal hs
  | @timeout t hs i inUse ht he =>
    have hput : (s.put t s.cache s.lock (.timedOut hs i inUse)).Accounted :=
      h.put_same (by rw [ht]; rfl) fun _ => rfl
    exact he ▸ ⟨hput.empty, hput.closing⟩

end

theorem accounted_of_reach {start : Int} (h : Reachable (CacheSys.step cfg) (init n ι start) s) :
    s.Ok ∧ s.Accounted := by
  refine h.invariant (I := fun s => s.Ok ∧ s.Accounted)
    ⟨ok_init n ι start, fun i => ?_, fun i hi => ?_⟩
    fun hs _ hstep => ⟨step_ok hs.1 hstep, hs.2.step hs.1 hstep⟩
  all_goals
    have hst := (resetBases_spec n ι start).2 i
  · rw [show (init n ι start).cache = resetBases n ι start from rfl, hst]
    split <;> simp_all
  · rw [show (init n ι start).cache = resetBases n ι start from rfl, hst] at hi
    split at hi <;> cases hi

/-! ## 名前の数と slot の数 -/

def heldNames (s : CacheSys n ι) : Finset Hashstr := (s.held.map (·.name)).toFinset

def usedSlots (s : CacheSys n ι) : Finset (Fin n) :=
  Finset.univ.filter fun i => (s.cache.bases i).status = some .used

omit [DecidableEq ι] in
theorem Ok.used_iff (h : s.Ok) (i : Fin n) :
    (s.cache.bases i).status = some .used ↔ ∃ x ∈ s.held, x.slot = i := by
  constructor
  · intro hi
    have hbase := h.cache.base i
    rw [CacheBase.Ok, hi] at hbase
    have hpos : 0 < (s.heldOn i).length := (h.slot i).count ▸ hbase.2.2
    obtain ⟨x, hx⟩ := exists_mem_of_length_pos hpos
    exact ⟨x, (mem_filter.mp hx).1, by simpa using (mem_filter.mp hx).2⟩
  · rintro ⟨x, hx, rfl⟩
    exact ((h.slot x.slot).held x (mem_filter.mpr ⟨hx, by simp⟩)).1

omit [DecidableEq ι] in
theorem Ok.name_of_mem (h : s.Ok) {x : Handle n ι} (hx : x ∈ s.held) :
    (s.cache.bases x.slot).name = some x.name :=
  ((h.slot x.slot).held x (mem_filter.mpr ⟨hx, by simp⟩)).2.2

omit [DecidableEq ι] in
theorem Ok.card_heldNames (h : s.Ok) : s.heldNames.card = s.usedSlots.card := by
  -- 使われている slot の名前は互いに違い、全体が開かれている名前
  have himage : s.usedSlots.image (fun i => (s.cache.bases i).name) = s.heldNames.image some := by
    ext o
    simp only [usedSlots, heldNames, Finset.mem_image, Finset.mem_filter, Finset.mem_univ, true_and,
      List.mem_toFinset, List.mem_map, h.used_iff]
    constructor
    · rintro ⟨_, ⟨x, hx, rfl⟩, rfl⟩
      exact ⟨x.name, ⟨x, hx, rfl⟩, (h.name_of_mem hx).symm⟩
    · rintro ⟨_, ⟨x, hx, rfl⟩, rfl⟩
      exact ⟨x.slot, ⟨x, hx, rfl⟩, h.name_of_mem hx⟩
  rw [← Finset.card_image_of_injective s.heldNames (some_injective _), ← himage,
    Finset.card_image_of_injOn]
  intro i hi j _ heq
  obtain ⟨x, hx, rfl⟩ := (h.used_iff i).mp (Finset.mem_filter.mp hi).2
  have hname := h.name_of_mem hx
  have hi' := (h.cache.named x.name x.slot).mpr hname
  have hj' := (h.cache.named x.name j).mpr (heq.symm.trans hname)
  exact some.inj (hi'.symm.trans hj')

theorem card_ne_zero (n : Nat) : (univ.filter fun i : Fin n => i.val ≠ 0).card = n - 1 := by
  cases n with
  | zero => rfl
  | succ m =>
    have herase : (univ.filter fun i : Fin (m + 1) => i.val ≠ 0) = univ.erase 0 := by
      ext i
      simp only [Finset.mem_filter, Finset.mem_univ, true_and, Finset.mem_erase, and_true]
      exact not_congr Fin.val_eq_zero_iff
    rw [herase, Finset.card_erase_of_mem (Finset.mem_univ _), Finset.card_univ, Fintype.card_fin]

omit [DecidableEq ι] in
theorem available_iff (h : s.Accounted) (hout : ∀ t, s.procs t = .out) (i : Fin n) :
    s.Available i ↔ i.val ≠ 0 ∧ i ∉ s.usedSlots := by
  have hempty := h.empty i
  have hclosing := h.closing i
  rw [usedSlots, Finset.mem_filter, Available, Ne, ← hempty]
  cases hst : (s.cache.bases i).status with
  | none => simp
  | some st =>
    cases st
    case closing =>
      obtain ⟨t, hs, k, ht⟩ := hclosing hst
      rw [hout t] at ht
      cases ht
    all_goals simp

omit [DecidableEq ι] in
/-- **free か idle の slot があるのは開かれている名前が `n - 1` 個より少ないとき。** -/
theorem exists_available_iff (hok : s.Ok) (h : s.Accounted) (hout : ∀ t, s.procs t = .out) :
    (∃ i, s.Available i) ↔ s.heldNames.card < n - 1 := by
  have hsub : s.usedSlots ⊆ univ.filter fun i : Fin n => i.val ≠ 0 := by
    intro i hi
    have hused := (Finset.mem_filter.mp hi).2
    refine mem_filter.mpr ⟨mem_univ i, fun h0 => ?_⟩
    rw [(h.empty i).mpr h0] at hused
    cases hused
  simp only [available_iff h hout]
  rw [hok.card_heldNames, ← card_ne_zero n]
  constructor
  · rintro ⟨i, h0, hi⟩
    refine card_lt_card ⟨hsub, fun hsup => hi (hsup ?_)⟩
    exact mem_filter.mpr ⟨mem_univ i, h0⟩
  · intro hlt
    obtain ⟨i, hi, hused⟩ := exists_mem_notMem_of_card_lt_card hlt
    exact ⟨i, (Finset.mem_filter.mp hi).2, hused⟩

/-- **slot は失われない。** どの thread も外にいれば、free か idle の slot と開かれた名前は合わせて `n - 1` 個。 -/
theorem available_add_held (cfg : CacheConfig) (start : Int)
    (h : Reachable (CacheSys.step cfg) (init n ι start) s) (hout : ∀ t, s.procs t = .out) :
    Nat.card {i // s.Available i} + s.heldNames.card = n - 1 := by
  obtain ⟨hok, hacc⟩ := accounted_of_reach h
  have hused : s.usedSlots ⊆ univ.filter fun i : Fin n => i.val ≠ 0 := by
    intro i hi
    refine mem_filter.mpr ⟨mem_univ i, fun h0 => ?_⟩
    have := (Finset.mem_filter.mp hi).2
    rw [(hacc.empty i).mpr h0] at this
    cases this
  have hcard : Nat.card {i // s.Available i} =
      ((univ.filter fun i : Fin n => i.val ≠ 0) \ s.usedSlots).card :=
    Nat.subtype_card _ fun i => by simp [available_iff hacc hout]
  rw [hcard, hok.card_heldNames, card_sdiff_add_card_eq_card hused, card_ne_zero]

/-- thread `a` が A を使い、thread `b` が B を開いて失効させ、もう一度開いて閉じる run -/
def mixedRun {T : Type} (a b : T) : List (CacheLabel T) :=
  [.call a (.openAndLockBase nameA) 1 a, .run a 1 a, .call b (.openAndLockBase nameB) 2 a,
    .run b 2 a, .call b (.unlockAndCloseBase 2 true) 3 a, .resume b 4 a,
    .call b (.openAndLockBase nameB) 5 a, .run b 5 a, .call b (.unlockAndCloseBase 2 false) 6 a]

/-- A が使う 1 番のほかに、B が idle で残る 2 番と、free の 3 番がある -/
theorem available_add_held_mixedRun : ∃ s : CacheSys 4 (Fin 2),
    exec (step {}) (init 4 (Fin 2) 0) (mixedRun 0 1) = some s ∧ s.heldNames = {nameA} ∧
    (s.cache.bases 2).status = some .idle ∧ (s.cache.bases 3).status = some .free ∧
    Nat.card {i // s.Available i} = 2 := by
  obtain ⟨s, hs, hout, hheld, hidle, hfree⟩ :
      ∃ s ∈ exec (step {}) (init 4 (Fin 2) 0) (mixedRun 0 1),
      (∀ t, s.procs t = .out) ∧ s.heldNames = {nameA} ∧ (s.cache.bases 2).status = some .idle ∧
        (s.cache.bases 3).status = some .free := by
    decide +kernel
  have hsum := available_add_held {} 0 (reachable_of_exec _ hs) hout
  rw [hheld, Finset.card_singleton] at hsum
  exact ⟨s, hs, hheld, hidle, hfree, by omega⟩

/-! ## 新しい名前の open -/

theorem returnsSlot_of_idle {hs : Hashstr} (hlock : s.lock = some t) (ht : s.procs t = .opening hs)
    (hidx : s.cache.basesByName[hs]? = some i)
    (hidle : (s.cache.bases i).status = some .idle ∨ (s.cache.bases i).status = some .idleHot) :
    ReturnsSlot cfg t s := by
  refine returnsSlot_of_opened hlock ht fun now => ?_
  unfold openAttempt
  rcases hidle with hst | hst
  all_goals
    simp only [hidx, hst]
    exact ⟨_, i, rfl⟩

omit [DecidableEq ι] in
theorem absent_or_idle {hs : Hashstr} (hok : s.Ok) (h : s.Accounted) (hout : ∀ t, s.procs t = .out)
    (hnew : hs ∉ s.heldNames) :
    s.cache.basesByName[hs]? = none ∨ ∃ i, s.cache.basesByName[hs]? = some i ∧
      ((s.cache.bases i).status = some .idle ∨ (s.cache.bases i).status = some .idleHot) := by
  cases hidx : s.cache.basesByName[hs]? with
  | none => exact .inl rfl
  | some i =>
    refine .inr ⟨i, rfl, ?_⟩
    have hname := (hok.cache.named hs i).mp hidx
    have hbase := hok.cache.base i
    have hclosing := h.closing i
    have hused := hok.used_iff i
    rw [CacheBase.Ok, hname] at hbase
    cases hst : (s.cache.bases i).status with
    | none =>
      rw [hst] at hbase
      cases hbase.1
    | some st =>
      cases st with
      | free =>
        rw [hst] at hbase
        cases hbase.1
      | idle => exact .inl rfl
      | idleHot => exact .inr rfl
      | used =>
        obtain ⟨x, hx, rfl⟩ := hused.mp hst
        have heq := some.inj (hname.symm.trans (hok.name_of_mem hx))
        exact absurd (mem_toFinset.mpr (mem_map.mpr ⟨x, hx, heq.symm⟩)) hnew
      | closing =>
        obtain ⟨t, hs', k, ht⟩ := hclosing hst
        rw [hout t] at ht
        cases ht

/-- **開かれていない名前の open。** どの thread も外にいる状態で slot を得て戻るのは、開かれている名前が `n - 1` 個より
少ないときに限る。 -/
theorem open_new_name_iff (cfg : CacheConfig) (start : Int) (s s' : CacheSys n ι)
    (h : Reachable (CacheSys.step cfg) (init n ι start) s) (hout : ∀ u, s.procs u = .out) (t : ι)
    (hs : Hashstr) (now : Int) (pick : ι) (hnew : hs ∉ s.heldNames)
    (hcall : CacheSys.step cfg s (.call t (.openAndLockBase hs) now pick) = some s') :
    ReturnsSlot cfg t s' ↔ s.heldNames.card < n - 1 := by
  obtain ⟨hok, hacc⟩ := accounted_of_reach h
  have hok' := step_ok hok hcall
  obtain rfl := step_call_open hcall
  have ht : (s.put t s.cache (some t) (.opening hs)).procs t = .opening hs := update_self ..
  rw [← exists_available_iff hok hacc hout]
  rcases absent_or_idle hok hacc hout hnew with habsent | ⟨i, hidx, hidle⟩
  · constructor
    · intro hret
      by_contra hno
      exact not_returns_of_full hok' rfl ht habsent (not_exists.mp hno) hret
    · rintro ⟨i, hi⟩
      exact returnsSlot_of_available hok' rfl ht habsent hi
  · exact iff_of_true (returnsSlot_of_idle rfl ht hidx hidle) ⟨i, .inr hidle⟩

/-- A が使われ、B が idle のとき、B を開ける -/
theorem open_new_name_mixedRun : ∃ s s' : CacheSys 4 (Fin 2),
    exec (step {}) (init 4 (Fin 2) 0) (mixedRun 0 1) = some s ∧ s.heldNames = {nameA} ∧
    step {} s (.call 1 (.openAndLockBase nameB) 7 0) = some s' ∧ ReturnsSlot {} 1 s' := by
  obtain ⟨s, hs, hout, hheld, hcall⟩ : ∃ s ∈ exec (step {}) (init 4 (Fin 2) 0) (mixedRun 0 1),
      (∀ t, s.procs t = .out) ∧ s.heldNames = {nameA} ∧
        (step {} s (.call 1 (.openAndLockBase nameB) 7 0)).isSome := by
    decide +kernel
  obtain ⟨s', hs'⟩ := Option.isSome_iff_exists.mp hcall
  have hiff := open_new_name_iff {} 0 s s' (reachable_of_exec _ hs) hout 1 nameB 7 0
    (by rw [hheld]; decide) hs'
  exact ⟨s, s', hs, hheld, hs', hiff.mpr (by rw [hheld]; decide)⟩

/-- `bases_count` が 1 の cache では open は戻らない -/
theorem open_hangs_with_one_base : (init 1 Nat 0).heldNames.card < 1 ∧
    step {} (init 1 Nat 0) (.call 0 (.openAndLockBase nameA) 1 0) =
      some ((init 1 Nat 0).put 0 (init 1 Nat 0).cache (some 0) (.opening nameA)) ∧
    ∀ Q, ¬ Returns {} 0 Q ((init 1 Nat 0).put 0 (init 1 Nat 0).cache (some 0) (.opening nameA)) := by
  refine ⟨by decide, rfl, fun Q => ?_⟩
  have hcall : step {} (init 1 Nat 0) (.call 0 (.openAndLockBase nameA) 1 0) =
      some ((init 1 Nat 0).put 0 (init 1 Nat 0).cache (some 0) (.opening nameA)) := rfl
  have ht : ((init 1 Nat 0).put 0 (init 1 Nat 0).cache (some 0) (.opening nameA)).procs 0 =
      .opening nameA := rfl
  refine not_returns_of_full (step_ok (ok_init 1 Nat 0) hcall) rfl ht rfl ?_
  rw [Fin.forall_fin_one]
  rintro (h | h | h) <;> cases h

end CacheSys

end Redcurrant.Sqliterepo
