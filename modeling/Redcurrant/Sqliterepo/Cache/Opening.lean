import Redcurrant.Sqliterepo.Cache.Exclusion

/-!
# cache に無い名前を開く

他の thread が止まっている間、cache に無い名前の open は free か idle の slot があれば戻る。
-/

namespace Redcurrant.Sqliterepo

open Infra Metautils Std Function

namespace CacheSys

variable {n : Nat} {ι : Type} [DecidableEq ι] {cfg : CacheConfig} {s s' : CacheSys n ι}

/-- `t` だけを進めると、有限回で戻り、戻り値は `Q` を満たす -/
def Returns (cfg : CacheConfig) (t : ι) (Q : CacheReply n → Prop) (s : CacheSys n ι) : Prop :=
  Inevitable (step cfg) (fun _ l => l.thread = t)
    (fun s => s.procs t = .out ∧ ∃ r, s.replies t = some r ∧ Q r) s

def Available (s : CacheSys n ι) (i : Fin n) : Prop :=
  (s.cache.bases i).status = some .free ∨ (s.cache.bases i).status = some .idle ∨
    (s.cache.bases i).status = some .idleHot

def ReturnsSlot (cfg : CacheConfig) (t : ι) (s : CacheSys n ι) : Prop :=
  Returns cfg t (fun r => ∃ i, r = .opened i) s

def ReturnsError (cfg : CacheConfig) (t : ι) (s : CacheSys n ι) : Prop :=
  Returns cfg t (fun r => ∃ e, r = .failed e) s

theorem exists_signal (s : CacheSys n ι) (i : Fin n) (t : ι) :
    ∃ pick s', s.signal i pick = some s' := by
  unfold signal condSignal
  split
  next => exact ⟨t, _, rfl⟩
  next h =>
    simp only [ne_eq, not_forall, not_not] at h
    obtain ⟨⟨c, u⟩, hmem, rfl⟩ := h
    exact ⟨u, _, by rw [if_pos hmem]; rfl⟩

variable {t : ι} {hs : Hashstr}

theorem step_opening {l : CacheLabel ι} (hlock : s.lock = some t) (ht : s.procs t = .opening hs)
    (hl : l.thread = t) (hstep : step cfg s l = some s') :
    ∃ now pick, l = .run t now pick ∧ openStep cfg s t hs now pick = some s' := by
  cases l
  all_goals
    cases hl
    simp only [step, CacheLabel.thread, resumeStep] at hstep ht hlock
  case run now pick =>
    rw [if_pos hlock, ht] at hstep
    exact ⟨now, pick, rfl, hstep⟩
  all_goals simp [ht] at hstep

theorem step_closing {i : Fin n} {hs : Option Hashstr} {k : AfterExpire} {l : CacheLabel ι}
    (hlock : s.lock = none) (ht : s.procs t = .closing i hs k) (hl : l.thread = t)
    (hstep : step cfg s l = some s') :
    ∃ now pick, l = .resume t now pick ∧ resumeStep cfg s t now pick = some s' := by
  cases l
  all_goals
    cases hl
    simp only [step, CacheLabel.thread] at hstep ht hlock
  case resume now pick =>
    rw [if_pos hlock] at hstep
    exact ⟨now, pick, rfl, hstep⟩
  all_goals simp [ht, hlock] at hstep

theorem openAttempt_absent (h : s.Ok) (hnew : s.cache.basesByName[hs]? = none) (now : Int) :
    (∃ c i, s.cache.openAttempt cfg hs t now = .opened c i ∧ Cache.Opened s.cache c hs t i) ∨
    (∃ i, s.cache.openAttempt cfg hs t now = .expire i ∧
      ((s.cache.bases i).status = some .idle ∨ (s.cache.bases i).status = some .idleHot) ∧
      ∀ j, (s.cache.bases j).status ≠ some .free) ∨
    (s.cache.openAttempt cfg hs t now = .again ∧ ∀ i, ¬ s.Available i) := by
  have hspec := Cache.openAttempt_spec h.cache cfg hs t now
  cases he : s.cache.openAttempt cfg hs t now with
  | opened c i =>
    rw [he] at hspec
    exact .inl ⟨c, i, rfl, hspec⟩
  | expire i =>
    rw [he] at hspec
    exact .inr (.inl ⟨i, rfl, hspec.2⟩)
  | again =>
    rw [he] at hspec
    refine .inr (.inr ⟨rfl, fun i hi => ?_⟩)
    obtain ⟨hf, hi1, hi2⟩ := hspec.2 i
    rcases hi with hi | hi | hi
    · exact hf hi
    · exact hi1 hi
    · exact hi2 hi
  | refused e i | wait i inUse =>
    rw [he] at hspec
    cases hnew.symm.trans hspec.1
  | abort =>
    rw [he] at hspec
    exact hspec.elim

theorem returnsSlot_of_opened (hlock : s.lock = some t) (ht : s.procs t = .opening hs)
    (hopen : ∀ now, ∃ c i, s.cache.openAttempt cfg hs t now = .opened c i) :
    ReturnsSlot cfg t s := by
  refine .next ?_ fun l s' hl hstep => ?_
  · obtain ⟨c, i, he⟩ := hopen 0
    obtain ⟨pick, s', hs'⟩ := exists_signal (s.grant t c hs i) i t
    refine ⟨.run t 0 pick, s', rfl, ?_⟩
    rw [step, if_pos hlock, ht]
    simp only [openStep, he]
    exact hs'
  · obtain ⟨now, pick, -, hs'⟩ := step_opening hlock ht hl hstep
    obtain ⟨c, i, he⟩ := hopen now
    simp only [openStep, he] at hs'
    obtain ⟨q, -, rfl⟩ := signal_eq_some hs'
    exact .now ⟨update_self .., .opened i, update_self .., i, rfl⟩

theorem returnsSlot_of_free {j : Fin n} (h : s.Ok) (hlock : s.lock = some t)
    (ht : s.procs t = .opening hs) (hnew : s.cache.basesByName[hs]? = none)
    (hj : (s.cache.bases j).status = some .free) : ReturnsSlot cfg t s := by
  refine returnsSlot_of_opened hlock ht fun now => ?_
  rcases openAttempt_absent h hnew now with ⟨c, i, he, -⟩ | ⟨i, -, -, hnf⟩ | ⟨-, hna⟩
  · exact ⟨c, i, he⟩
  · exact absurd hj (hnf j)
  · exact absurd (.inl hj) (hna j)

theorem returnsSlot_of_closing {i : Fin n} {nm : Option Hashstr} (h : s.Ok) (hlock : s.lock = none)
    (ht : s.procs t = .closing i nm (.reopen hs)) (hnew : s.cache.basesByName[hs]? = none) :
    ReturnsSlot cfg t s := by
  obtain ⟨hst, -, hname⟩ := (h.slot i).closing t nm _ ht
  have hresume : ∀ now pick, resumeStep cfg s t now pick =
      (s.put t (s.cache.expireEnd i nm now) (some t) (.opening hs)).signal i pick := by
    intro now pick
    simp only [resumeStep, ht]
  refine .next ?_ fun l s' hl hstep => ?_
  · obtain ⟨pick, s', hs'⟩ :=
      exists_signal (s.put t (s.cache.expireEnd i nm 0) (some t) (.opening hs)) i t
    refine ⟨.resume t 0 pick, s', rfl, ?_⟩
    rw [step, if_pos hlock, hresume]
    exact hs'
  obtain ⟨now, pick, -, hs'⟩ := step_closing hlock ht hl hstep
  rw [hresume] at hs'
  have hend : (s.put t (s.cache.expireEnd i nm now) (some t) (.opening hs)).Ok := h.expireEnd ht rfl
  have hok := hend.signal hs'
  obtain ⟨q, -, rfl⟩ := signal_eq_some hs'
  obtain ⟨-, ⟨nm', -, hidx⟩, stamp, hb⟩ := Cache.expireEnd_spec h.cache now hname hst
  refine returnsSlot_of_free (j := i) hok rfl (update_self ..) ?_ ?_
  · rw [put_cache, hidx, ExtTreeMap.getElem?_erase, hnew, ite_self]
  · rw [put_cache, hb, update_self]

section

variable (h : s.Ok) (hlock : s.lock = some t) (ht : s.procs t = .opening hs)
  (hnew : s.cache.basesByName[hs]? = none)
include h hlock ht hnew

theorem returnsSlot_of_available {j : Fin n} (hj : s.Available j) : ReturnsSlot cfg t s := by
  by_cases hfree : ∃ i, (s.cache.bases i).status = some .free
  · obtain ⟨i, hi⟩ := hfree
    exact returnsSlot_of_free h hlock ht hnew hi
  have hexp : ∀ now, ∃ i, s.cache.openAttempt cfg hs t now = .expire i ∧
      ((s.cache.bases i).status = some .idle ∨ (s.cache.bases i).status = some .idleHot) := by
    intro now
    rcases openAttempt_absent h hnew now with ⟨c, i, -, ho⟩ | ⟨i, he, hi, -⟩ | ⟨-, hna⟩
    · rcases ho.origin with ⟨hidx, -⟩ | ⟨-, hi, -⟩
      · cases hnew.symm.trans hidx
      · exact absurd ⟨i, hi⟩ hfree
    · exact ⟨i, he, hi⟩
    · exact absurd hj (hna j)
  refine .next ?_ fun l s' hl hstep => ?_
  · obtain ⟨i, he, -⟩ := hexp 0
    obtain ⟨pick, s', hs'⟩ :=
      exists_signal (s.window t (s.cache.expireSpecificBase i t 0) i (.reopen hs)) i t
    refine ⟨.run t 0 pick, s', rfl, ?_⟩
    rw [step, if_pos hlock, ht]
    simp only [openStep, he]
    exact hs'
  obtain ⟨now, pick, -, hs'⟩ := step_opening hlock ht hl hstep
  obtain ⟨i, he, hi⟩ := hexp now
  simp only [openStep, he] at hs'
  have hwin : (s.window t (s.cache.expireSpecificBase i t now) i (.reopen hs)).Ok := h.expire hi
  have hok := hwin.signal hs'
  obtain ⟨q, -, rfl⟩ := signal_eq_some hs'
  obtain ⟨stamp, hr⟩ := s.cache.rewritten_expireSpecificBase i t now
  refine returnsSlot_of_closing hok rfl (update_self ..) ?_
  rw [window, put_cache, hr.index, hnew]

/-- free も idle も無ければ、lock のまま回り続ける -/
theorem not_returns_of_full {Q : CacheReply n → Prop} (hfull : ∀ i, ¬ s.Available i) :
    ¬ Returns cfg t Q s := by
  have hagain : s.cache.openAttempt cfg hs t 0 = .again := by
    rcases openAttempt_absent h hnew 0 with ⟨c, i, -, ho⟩ | ⟨i, -, hi, -⟩ | ⟨he, -⟩
    · rcases ho.origin with ⟨hidx, -⟩ | ⟨-, hi, -⟩
      · cases hnew.symm.trans hidx
      · exact absurd (.inl hi) (hfull i)
    · exact absurd (.inr hi) (hfull i)
    · exact he
  refine not_inevitable_of_loop (l := .run t 0 t) ?_ rfl ?_
  · rintro ⟨hout, -⟩
    rw [ht] at hout
    cases hout
  · rw [step, if_pos hlock, ht]
    simp only [openStep, hagain]

end

theorem step_call_open {now : Int} {pick : ι}
    (hcall : step cfg s (.call t (.openAndLockBase hs) now pick) = some s') :
    s' = s.put t s.cache (some t) (.opening hs) := by
  simp only [step, callStep] at hcall
  split at hcall
  next =>
    split at hcall
    next => exact (Option.some.inj hcall).symm
    next => cases hcall
  next => cases hcall

/-- **cache に無い名前の open。** lock が空いているときに呼んだ thread だけを進めると、free か idle の slot があれば slot を
得て、無ければ error で戻る、というのはその slot があるときに限る。 -/
theorem open_returns_iff (cfg : CacheConfig) (start : Int) (s s' : CacheSys n ι)
    (h : Reachable (step cfg) (init n ι start) s) (t : ι) (hs : Hashstr) (now : Int) (pick : ι)
    (hnew : s.cache.basesByName[hs]? = none)
    (hcall : step cfg s (.call t (.openAndLockBase hs) now pick) = some s') :
    ((∃ i, s.Available i) → ReturnsSlot cfg t s') ∧
        ((∀ i, ¬ s.Available i) → ReturnsError cfg t s') ↔
      ∃ i, s.Available i := by
  have hok := step_ok (ok_of_reach h) hcall
  obtain rfl := step_call_open hcall
  have ht : (s.put t s.cache (some t) (.opening hs)).procs t = .opening hs := update_self ..
  refine ⟨fun ⟨_, herr⟩ => ?_, fun havail => ⟨fun ⟨i, hi⟩ => ?_, fun hfull => ?_⟩⟩
  · by_contra hno
    have hfull : ∀ i, ¬ s.Available i := fun i hi => hno ⟨i, hi⟩
    exact not_returns_of_full hok rfl ht hnew hfull (herr hfull)
  · exact returnsSlot_of_available hok rfl ht hnew hi
  · obtain ⟨i, hi⟩ := havail
    exact absurd hi (hfull i)

/-- slot が 2 つの cache で、1 番の slot を開いて閉じる run -/
def idleRun : List (CacheLabel Nat) :=
  [.call 0 (.openAndLockBase nameA) 1 0, .run 0 1 0, .call 0 (.unlockAndCloseBase 1 false) 2 0]

theorem open_returns_iff_idleRun : ∃ s s' : CacheSys 2 Nat,
    exec (step {}) (init 2 Nat 0) idleRun = some s ∧
    step {} s (.call 1 (.openAndLockBase nameB) 3 0) = some s' ∧
    (s.cache.bases 1).status = some .idle ∧ ReturnsSlot {} 1 s' := by
  obtain ⟨s, hs, hidle, hnew, hcall⟩ : ∃ s ∈ exec (step {}) (init 2 Nat 0) idleRun,
      (s.cache.bases 1).status = some .idle ∧ s.cache.basesByName[nameB]? = none ∧
        (step {} s (.call 1 (.openAndLockBase nameB) 3 0)).isSome := by
    decide +kernel
  obtain ⟨s', hs'⟩ := Option.isSome_iff_exists.mp hcall
  have hav : ∃ i, s.Available i := ⟨1, .inr (.inl hidle)⟩
  have hiff := open_returns_iff {} 0 s s' (reachable_of_exec _ hs) 1 nameB 3 0 hnew hs'
  exact ⟨s, s', hs, hs', hidle, (hiff.mpr hav).1 hav⟩

/-- slot が 2 つの cache で、1 番の slot を thread 0 が使っている -/
def fullRun : List (CacheLabel Nat) := [.call 0 (.openAndLockBase nameA) 1 0, .run 0 1 0]

/-- thread 0 が A を使う間に thread 1 が B を開くと、error にもならず戻らない -/
theorem open_never_returns : ∃ s s' : CacheSys 2 Nat,
    exec (step {}) (init 2 Nat 0) fullRun = some s ∧
    (s.cache.bases 0).status = none ∧ (s.cache.bases 1).status = some .used ∧
    s.cache.basesByName[nameB]? = none ∧
    step {} s (.call 1 (.openAndLockBase nameB) 2 0) = some s' ∧
    ∀ Q, ¬ Returns {} 1 Q s' := by
  obtain ⟨s, hs, h0, h1, hnew, hlock, hout⟩ : ∃ s ∈ exec (step {}) (init 2 Nat 0) fullRun,
      (s.cache.bases 0).status = none ∧ (s.cache.bases 1).status = some .used ∧
        s.cache.basesByName[nameB]? = none ∧ s.lock = none ∧ s.procs 1 = .out := by
    decide +kernel
  have hcall : step {} s (.call 1 (.openAndLockBase nameB) 2 0) =
      some (s.put 1 s.cache (some 1) (.opening nameB)) := by
    simp [step, callStep, hlock, hout]
  have hfull : ∀ i, ¬ s.Available i := by
    simp [Available, h0, h1]
  have hok := step_ok (ok_of_reach (reachable_of_exec _ hs)) hcall
  have ht : (s.put 1 s.cache (some 1) (.opening nameB)).procs 1 = .opening nameB := by
    rw [put_procs, update_self]
  exact ⟨s, _, hs, h0, h1, hnew, hcall, fun Q => not_returns_of_full hok rfl ht hnew hfull⟩

end CacheSys

end Redcurrant.Sqliterepo
