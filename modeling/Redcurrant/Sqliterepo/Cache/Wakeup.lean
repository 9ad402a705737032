import Redcurrant.Sqliterepo.Cache.Exclusion

/-!
# 失われる wake-up

待たれる base が使われているか閉じられている途中か、その open の途中の thread がいる（`Watched`）。
-/

namespace Redcurrant.Sqliterepo

open Infra Metautils Std List Function Option Cache

variable {n : Nat} {ι : Type}

def CachePc.wants : CachePc n → Option Hashstr
  | .waiting hs .. => some hs
  | _ => none

def CacheLabel.timesOut : CacheLabel ι → Bool
  | .timeout _ => true
  | _ => false

instance [DecidableEq ι] (c : Cache n ι) (cfg : CacheConfig) (i : Fin n) (t : ι) :
    Decidable (c.sleepsOn cfg i t) := inferInstanceAs (Decidable (_ ∨ _ ∧ _ ∧ ¬ _))

namespace CacheSys

variable {cfg : CacheConfig} {s s' : CacheSys n ι}

/-! ## 条件 -/

/-- open の 1 回が wake-up を失わせない条件。眠るときは同じ条件変数で別の名前を待つ者がいない。free の slot を取る
ときはその名前を待つ者は皆、その条件変数で眠っている。 -/
def OpenKeeps (cfg : CacheConfig) (s : CacheSys n ι) (t : ι) (hs : Hashstr) : Prop :=
  match s.cache.basesByName[hs]? with
  | some i => s.cache.sleepsOn cfg i t →
      ∀ e ∈ s.queue, e.1 = Cache.cond i → (s.procs e.2).wants = some hs
  | none =>
    match (s.cache.beacon .free).first with
    | some i => ∀ e ∈ s.queue, (s.procs e.2).wants = some hs → e.1 = Cache.cond i
    | none => True

/-- wake-up を失わせない step。条件は open の loop だけに付く。 -/
def KeepsWakeups (cfg : CacheConfig) (s : CacheSys n ι) : CacheLabel ι → Prop
  | .run t .. =>
    match s.procs t with
    | .opening hs => OpenKeeps cfg s t hs
    | _ => True
  | _ => True

instance [DecidableEq ι] (cfg : CacheConfig) (s : CacheSys n ι) (t : ι) (hs : Hashstr) :
    Decidable (OpenKeeps cfg s t hs) := by
  unfold OpenKeeps
  split
  · infer_instance
  · split <;> infer_instance

instance [DecidableEq ι] (cfg : CacheConfig) (s : CacheSys n ι) (l : CacheLabel ι) :
    Decidable (KeepsWakeups cfg s l) := by
  unfold KeepsWakeups
  split
  · split <;> infer_instance
  · infer_instance

/-! ## 不変条件 -/

/-- 名前の base が使われているか、閉じられている途中 -/
def Busy (c : Cache n ι) (hs : Hashstr) : Prop :=
  ∃ i, c.basesByName[hs]? = some i ∧
    ((c.bases i).status = some .used ∨ (c.bases i).status = some .closing)

/-- `u` は眠っておらず、名前 `hs` の open の途中にいる -/
def Serving (s : CacheSys n ι) (u : ι) (hs : Hashstr) : Prop :=
  match s.procs u with
  | .opening want => want = hs
  | .waiting want i _ => want = hs ∧ (Cache.cond i, u) ∉ s.queue
  | .closing _ _ (.reopen want) => want = hs
  | _ => False

/-- 眠る thread の不変条件。`loose` で眠る者にはこれから signal が送られる。 -/
structure Watched (s : CacheSys n ι) (loose : Option Nat) : Prop where
  nodup : s.queue.Nodup
  waits : ∀ c t, (c, t) ∈ s.queue → ∃ hs i inUse, s.procs t = .waiting hs i inUse ∧ c = Cache.cond i
  alone : ∀ c t u, (c, t) ∈ s.queue → (c, u) ∈ s.queue → (s.procs t).wants = (s.procs u).wants
  here : ∀ c t hs i, (c, t) ∈ s.queue → (s.procs t).wants = some hs →
    s.cache.basesByName[hs]? = some i → c = Cache.cond i
  alive : ∀ c t hs, (c, t) ∈ s.queue → (s.procs t).wants = some hs →
    loose = some c ∨ Busy s.cache hs ∨ ∃ u, s.Serving u hs

variable {loose : Option Nat} {t : ι} {hs : Hashstr} {i : Fin n} {c : Cache n ι} {lock : Option ι}
  {pc : CachePc n}

open Watched

theorem Watched.awake (h : s.Watched loose)
    (ht : ∀ hs i inUse, s.procs t = .waiting hs i inUse → (Cache.cond i, t) ∉ s.queue) (c : Nat) :
    (c, t) ∉ s.queue := by
  intro hmem
  obtain ⟨hs, i, inUse, hp, rfl⟩ := h.waits c t hmem
  exact ht hs i inUse hp hmem

theorem Serving.mono {u : ι} (h : s.Serving u hs) (hp : s'.procs u = s.procs u)
    (hq : ∀ c, (c, u) ∈ s'.queue → (c, u) ∈ s.queue) : s'.Serving u hs := by
  unfold Serving at h ⊢
  rw [hp]
  split
  next want he => simpa only [he] using h
  next want i k he =>
    simp only [he] at h
    exact ⟨h.1, fun hmem => h.2 (hq _ hmem)⟩
  next i nm want he => simpa only [he] using h
  next h1 h2 h3 =>
    split at h
    next want he => exact absurd he (h1 want)
    next want i k he => exact absurd he (h2 want i k)
    next i nm want he => exact absurd he (h3 i nm want)
    next => exact h

theorem Watched.shrink {loose : Option Nat} {q : List (Nat × ι)} (h : s.Watched loose)
    (hq : q.Sublist s.queue) : { s with queue := q }.Watched loose where
  nodup := h.nodup.sublist hq
  waits c t hmem := h.waits c t (hq.subset hmem)
  alone c t u ht hu := h.alone c t u (hq.subset ht) (hq.subset hu)
  here c t hs i hmem := h.here c t hs i (hq.subset hmem)
  alive c t hs hmem hw := by
    rcases h.alive c t hs (hq.subset hmem) hw with hl | hb | ⟨u, hu⟩
    · exact .inl hl
    · exact .inr (.inl hb)
    · exact .inr (.inr ⟨u, hu.mono rfl fun c hc => hq.subset hc⟩)

/-- 眠っていない `t` が眠る。待つ base は使われており、同じ条件変数で眠る者は皆その名前を待っている。 -/
theorem Watched.enqueue {inUse : Bool} (h : s.Watched none) (hawake : ∀ k, (k, t) ∉ s.queue)
    (ht : s.procs t = .waiting hs i inUse) (hi : s.cache.basesByName[hs]? = some i)
    (hb : Busy s.cache hs)
    (hkeep : ∀ e ∈ s.queue, e.1 = Cache.cond i → (s.procs e.2).wants = some hs) :
    { s with queue := (Cache.cond i, t) :: s.queue }.Watched none := by
  have hwt : (s.procs t).wants = some hs := by rw [ht]; rfl
  refine ⟨nodup_cons.mpr ⟨hawake _, h.nodup⟩, ?_, ?_, ?_, ?_⟩
  · intro c u hmem
    rcases mem_cons.mp hmem with he | hmem
    · cases he
      exact ⟨hs, i, inUse, ht, rfl⟩
    · exact h.waits c u hmem
  · have hwants : ∀ u, (Cache.cond i, u) ∈ (Cache.cond i, t) :: s.queue →
        (s.procs u).wants = some hs := by
      intro u hmem
      rcases mem_cons.mp hmem with he | hmem
      · rw [(Prod.mk.inj he).2, hwt]
      · exact hkeep _ hmem rfl
    intro c u v hu hv
    by_cases hc : c = Cache.cond i
    · subst hc
      exact (hwants u hu).trans (hwants v hv).symm
    have hold : ∀ w, (c, w) ∈ (Cache.cond i, t) :: s.queue → (c, w) ∈ s.queue := fun w hw =>
      (mem_cons.mp hw).resolve_left fun e => hc (Prod.mk.inj e).1
    exact h.alone c u v (hold u hu) (hold v hv)
  · intro c u hs' j hmem hw hj
    rcases mem_cons.mp hmem with he | hmem
    · cases he
      obtain rfl := some.inj (hwt.symm.trans hw)
      rw [some.inj (hi.symm.trans hj)]
    · exact h.here c u hs' j hmem hw hj
  · intro c u hs' hmem hw
    by_cases hne : hs' = hs
    · exact .inr (.inl (hne ▸ hb))
    rcases mem_cons.mp hmem with he | hmem
    · rw [(Prod.mk.inj he).2] at hw
      exact absurd (some.inj (hw.symm.trans hwt)) hne
    rcases h.alive c u hs' hmem hw with hl | hb' | ⟨v, hv⟩
    · exact .inl hl
    · exact .inr (.inl hb')
    -- `hs'` の open の途中にいるのは `t` ではない
    have hvt : v ≠ t := by
      rintro rfl
      simp only [Serving, ht] at hv
      exact hne hv.1.symm
    refine .inr (.inr ⟨v, hv.mono rfl fun k hk => ?_⟩)
    exact (mem_cons.mp hk).resolve_left fun e => hvt (Prod.mk.inj e).2

theorem awake_basesByName (c : Cache n ι) (i : Fin n) (inUse : Bool) :
    (awake c i inUse).basesByName = c.basesByName := by
  cases inUse <;> rfl

variable [DecidableEq ι]

/-- **signal は手放された名前を待つ 1 人を起こす。** -/
theorem Watched.signal {pick : ι} (h : s.Watched (some (cond i)))
    (hs : s.signal i pick = some s') : s'.Watched none := by
  obtain ⟨q, hq, rfl⟩ := signal_eq_some hs
  unfold condSignal at hq
  split at hq
  next hno =>
    cases hq
    refine ⟨h.nodup, h.waits, h.alone, h.here, fun c t hs hmem hw => .inr ?_⟩
    rcases h.alive c t hs hmem hw with hl | hb
    · exact absurd (some.inj hl).symm (hno _ hmem)
    · exact hb
  next =>
    split at hq
    next hpick =>
      cases hq
      have hsub := h.shrink (erase_sublist : (s.queue.erase (cond i, pick)).Sublist s.queue)
      refine ⟨hsub.nodup, hsub.waits, hsub.alone, hsub.here, fun c t hs hmem hw => .inr ?_⟩
      rcases hsub.alive c t hs hmem hw with hl | hb
      · -- `pick` は `t` と同じ名前を待っていた
        cases hl
        obtain ⟨want, j, k, hp, hj⟩ := h.waits _ pick hpick
        have hwant := h.alone _ t pick (mem_of_mem_erase hmem) hpick
        rw [hw, hp] at hwant
        refine .inr ⟨pick, ?_⟩
        unfold Serving
        simp only [hp]
        refine ⟨(some.inj hwant).symm, ?_⟩
        rw [← hj]
        exact h.nodup.not_mem_erase
      · exact hb
    next => cases hq

section

variable (h : s.Watched none)
include h

/-- 眠っていない `t` が書き換える。手放される slot の条件変数は `loose`。 -/
theorem Watched.put (hawake : ∀ k, (k, t) ∉ s.queue)
    (hhere : ∀ hs i, c.basesByName[hs]? = some i → s.cache.basesByName[hs]? = some i ∨
      ∀ k u, (k, u) ∈ s.queue → (s.procs u).wants = some hs → k = Cache.cond i)
    (hbusy : ∀ hs i, s.cache.basesByName[hs]? = some i →
      ((s.cache.bases i).status = some .used ∨ (s.cache.bases i).status = some .closing) →
      Busy c hs ∨ loose = some (Cache.cond i))
    (hserve : ∀ hs, s.Serving t hs → (s.put t c lock pc).Serving t hs ∨ Busy c hs) :
    (s.put t c lock pc).Watched loose := by
  have hprocs : ∀ k u, (k, u) ∈ s.queue → (s.put t c lock pc).procs u = s.procs u := by
    intro k u hmem
    rw [put_procs, update_of_ne fun e : u = t => hawake k (e ▸ hmem)]
  refine ⟨h.nodup, fun k u hmem => ?_, fun k u v hu hv => ?_, fun k u hs i hmem hw hi => ?_,
    fun k u hs hmem hw => ?_⟩
  · rw [hprocs k u hmem]
    exact h.waits k u hmem
  · rw [hprocs k u hu, hprocs k v hv]
    exact h.alone k u v hu hv
  · rw [hprocs k u hmem] at hw
    rcases hhere hs i hi with hi | hk
    · exact h.here k u hs i hmem hw hi
    · exact hk k u hmem hw
  · rw [hprocs k u hmem] at hw
    rcases h.alive k u hs hmem hw with hl | ⟨i, hi, hst⟩ | ⟨v, hv⟩
    · cases hl
    · rcases hbusy hs i hi hst with hb | hl
      · exact .inr (.inl hb)
      · exact .inl (hl.trans (congrArg some (h.here k u hs i hmem hw hi).symm))
    by_cases hvt : v = t
    · subst hvt
      rcases hserve hs hv with hv | hb
      · exact .inr (.inr ⟨v, hv⟩)
      · exact .inr (.inl hb)
    · refine .inr (.inr ⟨v, hv.mono ?_ fun _ hc => hc⟩)
      rw [put_procs, update_of_ne hvt]

/-! ## 各 step -/

theorem Watched.put_same (hawake : ∀ k, (k, t) ∉ s.queue)
    (hidx : c.basesByName = s.cache.basesByName)
    (hst : ∀ i, ((s.cache.bases i).status = some .used ∨ (s.cache.bases i).status = some .closing) →
      ((c.bases i).status = some .used ∨ (c.bases i).status = some .closing) ∨
        loose = some (Cache.cond i))
    (hserve : ∀ hs, s.Serving t hs → (s.put t c lock pc).Serving t hs ∨ Busy c hs) :
    (s.put t c lock pc).Watched loose := by
  refine h.put hawake (fun hs i hi => .inl (hidx ▸ hi)) (fun hs i hi hb => ?_) hserve
  rcases hst i hb with hb | hl
  · exact .inl ⟨i, by rw [hidx, hi], hb⟩
  · exact .inr hl

theorem Watched.sleep {inUse : Bool} (ht : s.procs t = .opening hs)
    (hi : s.cache.basesByName[hs]? = some i)
    (hst : (s.cache.bases i).status = some .used ∨ (s.cache.bases i).status = some .closing)
    (hkeep : ∀ e ∈ s.queue, e.1 = Cache.cond i → (s.procs e.2).wants = some hs) :
    (s.sleep t hs i inUse).Watched none := by
  have hawake := h.awake (t := t) fun _ _ _ he => by simp [ht] at he
  unfold CacheSys.sleep
  generalize hc : (if inUse then s.cache.modify i fun b => { b with countWaiting := b.countWaiting + 1 }
    else s.cache) = c
  have hidx : c.basesByName = s.cache.basesByName := by
    rw [← hc]
    split <;> rfl
  have hstat : ∀ j, (c.bases j).status = (s.cache.bases j).status := by
    intro j
    rw [← hc]
    split
    · exact modify_status _ _ _ fun _ => rfl
    · rfl
  have hself : (s.put t c none (.waiting hs i inUse)).procs t = .waiting hs i inUse :=
    update_self ..
  have hput : (s.put t c none (.waiting hs i inUse)).Watched none := by
    refine h.put_same hawake hidx (fun j hj => .inl ((hstat j).symm ▸ hj)) fun hs' hv => .inl ?_
    simp only [Serving, ht] at hv
    simp only [Serving, hself]
    exact ⟨hv, hawake _⟩
  refine hput.enqueue hawake hself ?_ ⟨i, ?_, ?_⟩ fun e he hc => ?_
  · rw [put_cache, hidx, hi]
  · rw [put_cache, hidx, hi]
  · rwa [put_cache, hstat]
  · have hne : e.2 ≠ t := fun hu => hawake e.1 (hu ▸ he)
    rw [put_procs, update_of_ne hne]
    exact hkeep e he hc

omit h in
theorem Watched.leave_of_put {r : CacheReply n} (h : (s.put t c none .out).Watched loose) :
    (s.leave t c r).Watched loose :=
  ⟨h.nodup, h.waits, h.alone, h.here, h.alive⟩

/-- slot を 1 つ書き換える `put`。使われていた slot が idle になるときだけ緩む。 -/
theorem Watched.put_rewritten {b : CacheBase ι} (hawake : ∀ k, (k, t) ∉ s.queue)
    (hr : Cache.Rewritten s.cache c i b)
    (hserve : ∀ hs, s.Serving t hs → (s.put t c lock pc).Serving t hs ∨ Busy c hs) :
    (s.put t c lock pc).Watched (some (cond i)) := by
  refine h.put_same hawake hr.index (fun j hj => ?_) hserve
  by_cases hji : j = i
  · exact .inr (hji ▸ rfl)
  · rw [hr.bases, update_of_ne hji]
    exact .inl hj

/-- slot を得る。名前が cache に無かったなら、待つ者は皆その条件変数で眠っている。 -/
theorem Watched.grant (hok : s.Ok) (hawake : ∀ k, (k, t) ∉ s.queue)
    (hwant : ∀ hs', s.Serving t hs' → hs = hs') (hkeep : OpenKeeps cfg s t hs)
    (ho : Cache.Opened s.cache c hs t i) : (s.grant t c hs i).Watched loose := by
  have hbusy : Busy c hs := ⟨i, (ho.ok.named hs i).mpr ho.name, .inl ho.status⟩
  have hput : (s.put t c none .out).Watched loose := by
    refine h.put hawake (fun hs' j hj => ?_) (fun hs' j hj hst => .inl ?_) fun hs' hv =>
      .inr (hwant hs' hv ▸ hbusy)
    · rw [ho.ok.named] at hj
      by_cases hji : j = i
      · subst hji
        obtain rfl := some.inj (ho.name.symm.trans hj)
        rcases ho.origin with ⟨hidx, -⟩ | ⟨hnew, -, hfirst⟩
        · exact .inl hidx
        · simp only [OpenKeeps, hnew, hfirst] at hkeep
          exact .inr fun k u hmem hw => hkeep (k, u) hmem hw
      · rw [ho.frame j hji] at hj
        exact .inl ((hok.cache.named hs' j).mpr hj)
    by_cases hji : j = i
    · subst hji
      rcases ho.origin with ⟨hidx, -⟩ | ⟨-, hfree, -⟩
      · have hn := (hok.cache.named hs j).mp hidx
        have hn' := (hok.cache.named hs' j).mp hj
        exact some.inj (hn.symm.trans hn') ▸ hbusy
      · rcases hst with hst | hst <;> simp [hfree] at hst
    · refine ⟨j, (ho.ok.named hs' j).mpr ?_, by rwa [ho.frame j hji]⟩
      rw [ho.frame j hji]
      exact (hok.cache.named hs' j).mp hj
  exact ⟨hput.nodup, hput.waits, hput.alone, hput.here, hput.alive⟩

theorem Watched.expireEnd {nm : Option Hashstr} {k : AfterExpire} {now : Int} (hok : s.Ok)
    (ht : s.procs t = .closing i nm k) (hpc : ∀ want, k = .reopen want → pc = .opening want) :
    (s.put t (s.cache.expireEnd i nm now) lock pc).Watched (some (cond i)) := by
  have hawake := h.awake (t := t) fun _ _ _ he => by simp [ht] at he
  obtain ⟨hst, -, hname⟩ := (hok.slot i).closing t nm k ht
  obtain ⟨hok', -, stamp, hb⟩ := expireEnd_spec hok.cache now hname hst
  have hbases : ∀ j ≠ i, (s.cache.expireEnd i nm now).bases j = s.cache.bases j := fun j hj => by
    rw [hb, update_of_ne hj]
  refine h.put hawake (fun hs j hj => .inl ?_) (fun hs j hj hst' => ?_) fun hs hv => .inl ?_
  · rw [hok'.named] at hj
    have hji : j ≠ i := by
      rintro rfl
      simp [hb] at hj
    rw [hbases j hji] at hj
    exact (hok.cache.named hs j).mpr hj
  · by_cases hji : j = i
    · exact .inr (hji ▸ rfl)
    refine .inl ⟨j, (hok'.named hs j).mpr ?_, by rwa [hbases j hji]⟩
    rw [hbases j hji]
    exact (hok.cache.named hs j).mp hj
  · simp only [Serving, ht] at hv
    split at hv
    next want he => cases he
    next want i' k' he => cases he
    next i' nm' want he =>
      obtain ⟨-, -, rfl⟩ := CachePc.closing.inj he
      obtain rfl := hpc want rfl
      simp only [Serving, put_procs, update_self]
      exact hv
    next => exact hv.elim

/-! ## run -/

/-- **条件を満たす step は不変条件を保つ。** -/
theorem Watched.step {l : CacheLabel ι} (hok : s.Ok) (hl : l.timesOut = false)
    (hkeep : KeepsWakeups cfg s l) (hstep : step cfg s l = some s') :
    s'.Watched none := by
  -- `waiting` でない thread は眠っていない
  have hawake : ∀ {t}, (s.procs t).wants = none → ∀ k, (k, t) ∉ s.queue := fun ht =>
    h.awake fun _ _ _ he => by simp [he, CachePc.wants] at ht
  cases hok.step_acts hstep with
  | enter ht _ he =>
    refine he ▸ h.put_same (hawake (by rw [ht]; rfl)) rfl (fun _ hj => .inl hj) fun hs hv => ?_
    simp only [Serving, ht] at hv
  | badId he => exact he ▸ ⟨h.nodup, h.waits, h.alone, h.here, h.alive⟩
  | @close t _ _ _ _ i c _ pc _ ht _ hc hs =>
    have hput : (s.put t c none pc).Watched (some (cond i)) := by
      refine h.put_rewritten (hawake (by rw [ht]; rfl)) hc.cache fun hs hv => ?_
      simp only [Serving, ht] at hv
    refine signal ?_ hs
    exact ⟨hput.nodup, hput.waits, hput.alone, hput.here, hput.alive⟩
  | grant ht ho hs =>
    simp only [KeepsWakeups, ht] at hkeep
    refine (h.grant hok (hawake (by rw [ht]; rfl)) (fun hs' hv => ?_) hkeep ho).signal hs
    simpa only [Serving, ht] using hv
  | @refuse t _ _ want _ i ht hi hst hs =>
    refine signal (leave_of_put ?_) hs
    refine h.put_same (hawake (by rw [ht]; rfl)) rfl (fun j hj => .inl hj) fun hs' hv => .inr ?_
    simp only [Serving, ht] at hv
    exact hv ▸ ⟨i, hi, .inl hst⟩
  | @sleep t _ _ want i inUse ht hi hsl hst he =>
    simp only [KeepsWakeups, ht, OpenKeeps, hi] at hkeep
    refine he ▸ h.sleep ht hi ?_ (hkeep hsl)
    cases inUse with
    | true => exact .inl hst
    | false => exact .inr hst
  | again he => exact he ▸ h
  | swept ht he =>
    refine he ▸ leave_of_put ?_
    refine h.put_same (hawake (by rw [ht]; rfl)) rfl (fun _ hj => .inl hj) fun hs hv => ?_
    simp only [Serving, ht] at hv
  | @expire t _ now i k hk hidle hs =>
    obtain ⟨stamp, hr⟩ := s.cache.rewritten_expireSpecificBase i t now
    rcases hk with ⟨want, ht, rfl⟩ | ⟨limit, nb, ht, rfl⟩
    · refine signal (h.put_rewritten (hawake (by rw [ht]; rfl)) hr fun hs' hv => .inl ?_) hs
      simp only [Serving, ht] at hv
      simp only [Serving, put_procs, update_self]
      exact hv
    · refine signal (h.put_rewritten (hawake (by rw [ht]; rfl)) hr fun hs' hv => ?_) hs
      simp only [Serving, ht] at hv
  | @expired t _ now i nm _ lock pc _ ht _ hpc hs =>
    have hput : (s.put t (s.cache.expireEnd i nm now) lock pc).Watched (some (cond i)) :=
      h.expireEnd hok ht hpc
    refine signal ?_ hs
    exact ⟨hput.nodup, hput.waits, hput.alone, hput.here, hput.alive⟩
  | woken ht hnot he =>
    have hawake := h.awake fun hs' i' inUse' he => by
      obtain ⟨-, rfl, -⟩ := CachePc.waiting.inj (ht.symm.trans he)
      exact hnot
    refine he ▸ h.put_same hawake (awake_basesByName ..) (fun j hj => .inl ?_) fun hs' hv => .inl ?_
    · rwa [awake_status]
    simp only [Serving, ht] at hv
    simp only [Serving, put_procs, update_self]
    exact hv.1
  | gaveUp ht hs =>
    refine signal (leave_of_put ?_) hs
    refine h.put_same (hawake (by rw [ht]; rfl)) (awake_basesByName ..) (fun j hj => .inl ?_)
      fun hs' hv => ?_
    · rwa [awake_status]
    · simp only [Serving, ht] at hv
  | timeout _ _ => cases hl
  | stray he => exact he ▸ h.shrink erase_sublist

end

theorem watched_of_reach {start : Int}
    (h : Reach (step cfg) (fun s l => l.timesOut = false ∧ KeepsWakeups cfg s l)
      (init n ι start) s) : s.Ok ∧ s.Watched none := by
  have hinit : (init n ι start).Watched none := ⟨nodup_nil, nofun, nofun, nofun, nofun⟩
  exact h.invariant (I := fun s => s.Ok ∧ s.Watched none) ⟨ok_init n ι start, hinit⟩
    fun hs hl hstep => ⟨step_ok hs.1 hstep, hs.2.step hs.1 hl.1 hl.2 hstep⟩

/-- どの thread も、cache の外にいるか、眠っている -/
def Quiescent (s : CacheSys n ι) : Prop := ∀ t, s.procs t = .out ∨ t ∈ s.queue.map Prod.snd

instance {m : Nat} (s : CacheSys n (Fin m)) : Decidable s.Quiescent :=
  inferInstanceAs (Decidable (∀ t : Fin m, s.procs t = .out ∨ t ∈ s.queue.map Prod.snd))

/-- **wake-up は失われない。** どの step も `KeepsWakeups` を満たす時間切れの無い run で、どの thread も外にいるか眠って
いるとき、待たれる base は使われているか閉じられている途中。 -/
theorem no_wakeup_lost (cfg : CacheConfig) (start : Int) (s : CacheSys n ι)
    (h : Reach (step cfg) (fun s l => l.timesOut = false ∧ KeepsWakeups cfg s l) (init n ι start) s)
    (hq : s.Quiescent) (t : ι) (hs : Hashstr) (i : Fin n) (inUse : Bool)
    (ht : s.procs t = .waiting hs i inUse) :
    ∃ j, s.cache.basesByName[hs]? = some j ∧
      ((s.cache.bases j).status = some .used ∨ (s.cache.bases j).status = some .closing) := by
  obtain ⟨-, hw⟩ := watched_of_reach h
  have hasleep : t ∈ s.queue.map Prod.snd := (hq t).resolve_left fun ho => by simp [ho] at ht
  obtain ⟨⟨c, t⟩, hc, rfl⟩ := mem_map.mp hasleep
  rcases hw.alive c t hs hc (by rw [ht]; rfl) with hl | hb | ⟨u, hu⟩
  · cases hl
  · exact hb
  -- 外の thread も眠る thread も、open の途中にはいない
  exfalso
  rcases hq u with ho | hmem
  · simp only [Serving, ho] at hu
  obtain ⟨⟨k, u⟩, hk, rfl⟩ := mem_map.mp hmem
  obtain ⟨want, j, m, hp, rfl⟩ := hw.waits k u hk
  simp only [Serving, hp] at hu
  exact hu.2 hk

/-- thread 0 が A を使い、thread 1 と 2 が A を待って眠る run -/
def queueRun : List (CacheLabel (Fin 3)) :=
  [.call 0 (.openAndLockBase nameA) 1 0, .run 0 1 0, .call 1 (.openAndLockBase nameA) 2 0,
    .run 1 2 0, .call 2 (.openAndLockBase nameA) 3 0, .run 2 3 0]

theorem no_wakeup_lost_queueRun : ∃ s : CacheSys 3 (Fin 3),
    exec (step {}) (init 3 (Fin 3) 0) queueRun = some s ∧
    s.procs 1 = .waiting nameA 1 true ∧ ∃ j, s.cache.basesByName[nameA]? = some j ∧
      ((s.cache.bases j).status = some .used ∨ (s.cache.bases j).status = some .closing) := by
  have hok : execOk (step {}) (fun s l => l.timesOut = false ∧ KeepsWakeups {} s l)
      (init 3 (Fin 3) 0) queueRun = true := by
    decide +kernel
  obtain ⟨s, hs, hquiet, hpc⟩ : ∃ s ∈ exec (step {}) (init 3 (Fin 3) 0) queueRun,
      s.Quiescent ∧ s.procs 1 = .waiting nameA 1 true := by
    decide +kernel
  exact ⟨s, hs, hpc, no_wakeup_lost {} 0 s (reach_of_exec _ hok hs) hquiet 1 nameA 1 true hpc⟩

def nameC : Hashstr := Hashstr.create (ascii "C")

/-- thread 0 が A を 1 が C を使い、2 と 3 が A を待つ。A が強制的に閉じられて起きた 2 は眠り直し、閉じ終わりの signal
でも 2 が起きる。先に free になった 2 番の slot で、2 は A を開いて、閉じる。 -/
def strandedRun : List (CacheLabel (Fin 4)) :=
  [.call 0 (.openAndLockBase nameA) 1 0, .run 0 1 0, .call 1 (.openAndLockBase nameC) 2 0,
    .run 1 2 0, .call 2 (.openAndLockBase nameA) 3 0, .run 2 3 0,
    .call 3 (.openAndLockBase nameA) 4 0, .run 3 4 0,
    .call 0 (.unlockAndCloseBase 1 true) 5 2, .resume 2 6 0, .run 2 6 0, .resume 0 7 2,
    .call 1 (.unlockAndCloseBase 2 true) 8 0, .resume 1 9 0, .resume 2 10 0, .run 2 10 0,
    .call 2 (.unlockAndCloseBase 2 false) 11 0]

/-- A は 2 番の slot で idle になり、thread 3 は 1 番で眠ったまま残る -/
theorem wakeup_lost_strandedRun : ∃ s : CacheSys 4 (Fin 4),
    exec (step { openTimeout := -1 }) (init 4 (Fin 4) 0) strandedRun = some s ∧
    s.Quiescent ∧ s.procs 3 = .waiting nameA 1 true ∧ s.cache.basesByName[nameA]? = some 2 ∧
    (s.cache.bases 2).status = some .idle := by
  decide +kernel

end CacheSys

end Redcurrant.Sqliterepo
