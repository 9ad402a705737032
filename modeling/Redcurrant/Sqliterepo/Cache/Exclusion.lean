import Redcurrant.Sqliterepo.Cache.Threads

/-!
# cache の整合と排他

`CacheSys.Ok` は cache の不変条件に、slot への handle が owner だけのもので open 数だけあること（`SlotOk`）を加える。
-/

namespace Redcurrant.Sqliterepo

open Infra Metautils Std List Function Option Cache

variable {n : Nat} {ι : Type}

/-- slot の内容が、閉じている thread と handle の列に合っている -/
structure SlotOk (b : CacheBase ι) (i : Fin n) (procs : ι → CachePc n)
    (handles : List (Handle n ι)) : Prop where
  closing : ∀ t hs k, procs t = .closing i hs k →
    b.status = some .closing ∧ b.owner = some t ∧ b.name = hs
  held : ∀ h ∈ handles, b.status = some .used ∧ b.owner = some h.thread ∧ b.name = some h.name
  count : b.countOpen = handles.length

theorem SlotOk.congr {b b' : CacheBase ι} {i : Fin n} {procs procs' : ι → CachePc n}
    {handles : List (Handle n ι)} (h : SlotOk b i procs handles) (hst : b'.status = b.status)
    (hown : b'.owner = b.owner) (hname : b'.name = b.name) (hcount : b'.countOpen = b.countOpen)
    (hp : ∀ t hs k, procs' t = .closing i hs k → procs t = .closing i hs k) :
    SlotOk b' i procs' handles := by
  refine ⟨fun t hs k ht => ?_, fun x hx => ?_, hcount.trans h.count⟩
  · rw [hst, hown, hname]
    exact h.closing t hs k (hp t hs k ht)
  · rw [hst, hown, hname]
    exact h.held x hx

namespace CacheSys

variable {cfg : CacheConfig} {s s' : CacheSys n ι}

/-- slot への handle -/
def heldOn (s : CacheSys n ι) (i : Fin n) : List (Handle n ι) := s.held.filter (·.slot = i)

structure Ok (s : CacheSys n ι) : Prop where
  cache : s.cache.Ok
  slot : ∀ i, SlotOk (s.cache.bases i) i s.procs (s.heldOn i)

/-! ## 1 つの slot を書き換える step -/

variable {i j : Fin n} {pick t u : ι} {pc : CachePc n} {hs : Option Hashstr} {k : AfterExpire}
  {lock : Option ι} {now : Int}

theorem Ok.touch (h : s.Ok) (hc : s'.cache.Ok) (hb : ∀ j ≠ i, s'.cache.bases j = s.cache.bases j)
    (hp : ∀ t j hs k, j ≠ i → s'.procs t = .closing j hs k → s.procs t = .closing j hs k)
    (hh : ∀ j ≠ i, s'.heldOn j = s.heldOn j)
    (hi : SlotOk (s'.cache.bases i) i s'.procs (s'.heldOn i)) : s'.Ok := by
  refine ⟨hc, fun j => ?_⟩
  by_cases hj : j = i
  · exact hj ▸ hi
  · rw [hb j hj, hh j hj]
    exact (h.slot j).congr rfl rfl rfl rfl fun t hs k => hp t j hs k hj

theorem Ok.quiet (h : s.Ok) (hc : s'.cache.Ok)
    (hb : ∀ j, (s'.cache.bases j).status = (s.cache.bases j).status ∧
      (s'.cache.bases j).owner = (s.cache.bases j).owner ∧
      (s'.cache.bases j).name = (s.cache.bases j).name ∧
      (s'.cache.bases j).countOpen = (s.cache.bases j).countOpen)
    (hp : ∀ t j hs k, s'.procs t = .closing j hs k → s.procs t = .closing j hs k)
    (hh : s'.held = s.held) : s'.Ok := by
  refine ⟨hc, fun j => ?_⟩
  have hheld : s'.heldOn j = s.heldOn j := by rw [heldOn, hh, heldOn]
  obtain ⟨hst, hown, hname, hcount⟩ := hb j
  rw [hheld]
  exact (h.slot j).congr hst hown hname hcount fun t hs k => hp t j hs k

/-- 1 回閉じた後の base。open 数が残れば使われたまま、残らなければ idle か閉じられている途中。 -/
def Released (old b : CacheBase ι) : Prop :=
  b.countOpen ≠ 0 ∧ b.status = some .used ∧ b.owner = old.owner ∨
    b.countOpen = 0 ∧ (b.status = some .idle ∨ b.status = some .idleHot) ∧ b.owner = none ∨
    b.countOpen = 0 ∧ b.status = some .closing ∧ b.owner = old.owner

theorem Released.ok {old b : CacheBase ι} (h : Released old b) (hname : b.name.isSome = true)
    (hown : old.owner.isSome = true) : b.Ok := by
  rw [CacheBase.Ok]
  rcases h with ⟨h0, hs, ho⟩ | ⟨h0, hs | hs, ho⟩ | ⟨h0, hs, ho⟩
  · rw [hs]
    exact ⟨hname, ho ▸ hown, Nat.pos_of_ne_zero h0⟩
  · rw [hs]
    exact ⟨hname, ho, h0⟩
  · rw [hs]
    exact ⟨hname, ho, h0⟩
  · rw [hs]
    exact ⟨hname, ho ▸ hown, h0⟩

theorem awake_status (c : Cache n ι) (i j : Fin n) (inUse : Bool) :
    ((awake c i inUse).bases j).status = (c.bases j).status := by
  cases inUse with
  | true => exact modify_status c i j (f := fun b => { b with countWaiting := _ }) fun _ => rfl
  | false => rfl

variable [DecidableEq ι]

@[simp] theorem heldOn_put (s : CacheSys n ι) (t : ι) (c : Cache n ι) (lock : Option ι)
    (pc : CachePc n) (i : Fin n) : (s.put t c lock pc).heldOn i = s.heldOn i := rfl

theorem signal_eq_some (h : s.signal i pick = some s') :
    ∃ q, condSignal s.queue (cond i) pick = some q ∧ s' = { s with queue := q } := by
  obtain ⟨q, hq, rfl⟩ := map_eq_some_iff.mp h
  exact ⟨q, hq, rfl⟩

theorem Ok.signal (h : s.Ok) (hs : s.signal i pick = some s') : s'.Ok := by
  obtain ⟨q, -, rfl⟩ := signal_eq_some hs
  exact ⟨h.cache, h.slot⟩

theorem closing_update {procs : ι → CachePc n} (h : update procs t pc u = .closing j hs k) :
    u ≠ t ∧ procs u = .closing j hs k ∨ u = t ∧ pc = .closing j hs k := by
  by_cases hu : u = t
  · subst hu
    exact .inr ⟨rfl, by rwa [update_self] at h⟩
  · exact .inl ⟨hu, by rwa [update_of_ne hu] at h⟩

theorem closing_of_update {procs : ι → CachePc n} (hpc : pc.isClosing = false)
    (h : update procs t pc u = .closing j hs k) : u ≠ t ∧ procs u = .closing j hs k := by
  rcases closing_update h with h | ⟨-, rfl⟩
  · exact h
  · cases hpc

section

variable (h : s.Ok)
include h

theorem Ok.put (hpc : pc.isClosing = false) : (s.put t s.cache lock pc).Ok :=
  h.quiet h.cache (fun _ => ⟨rfl, rfl, rfl, rfl⟩) (fun _ _ _ _ hu => (closing_of_update hpc hu).2)
    rfl

omit h in
theorem Ok.leave_of_put {c : Cache n ι} {r : CacheReply n} (h : (s.put t c none .out).Ok) :
    (s.leave t c r).Ok :=
  ⟨h.cache, h.slot⟩

theorem Ok.leave {r : CacheReply n} : (s.leave t s.cache r).Ok := (h.put rfl).leave_of_put

theorem Ok.waiting {w : CacheBase ι → Int} (hpc : pc.isClosing = false) :
    (s.put t (s.cache.modify i fun b => { b with countWaiting := w b }) lock pc).Ok := by
  have hr := s.cache.rewritten_modify i (fun b => { b with countWaiting := w b }) rfl
  refine h.quiet (h.cache.rewritten hr rfl (h.cache.base i)) (fun j => ?_)
    (fun _ _ _ _ hu => (closing_of_update hpc hu).2) rfl
  by_cases hj : j = i
  · subst hj
    simp
  · rw [put_cache, modify_bases_of_ne hj]
    exact ⟨rfl, rfl, rfl, rfl⟩

theorem Ok.sleep {hs : Hashstr} {inUse : Bool} : (s.sleep t hs i inUse).Ok := by
  have hput : (s.put t (if inUse then
      s.cache.modify i fun b => { b with countWaiting := b.countWaiting + 1 } else s.cache) none
      (.waiting hs i inUse)).Ok := by
    cases inUse with
    | true => exact h.waiting (w := fun b => b.countWaiting + 1) rfl
    | false => exact h.put rfl
  exact ⟨hput.cache, hput.slot⟩

theorem Ok.awake {inUse : Bool} (hpc : pc.isClosing = false) :
    (s.put t (CacheSys.awake s.cache i inUse) lock pc).Ok := by
  cases inUse with
  | true => exact h.waiting (w := fun b => b.countWaiting - 1) hpc
  | false => exact h.put hpc

/-! ## 開く -/

theorem Ok.grant {c : Cache n ι} {hs : Hashstr} (ho : Cache.Opened s.cache c hs t i) :
    (s.grant t c hs i).Ok := by
  have hslot := h.slot i
  have hnot : ∀ u nm k, s.procs u ≠ .closing i nm k := by
    intro u nm k hu
    have hcl := (hslot.closing u nm k hu).1
    rcases ho.origin with ⟨-, hne⟩ | ⟨-, hfree, -⟩
    · exact hne hcl
    · simp [hfree] at hcl
  refine h.touch (i := i) ho.ok ho.frame (fun _ _ _ _ _ hu => (closing_of_update rfl hu).2)
    (fun j hj => ?_) ⟨?_, ?_, ?_⟩
  · exact filter_cons_of_neg (by simpa using Ne.symm hj)
  · exact fun u nm k hu => absurd (closing_of_update rfl hu).2 (hnot u nm k)
  · intro x hx
    refine ⟨ho.status, ?_⟩
    rw [show (s.grant t c hs i).cache = c from rfl, ho.owner, ho.name]
    rw [heldOn, show (s.grant t c hs i).held = ⟨t, hs, i⟩ :: s.held from rfl,
      filter_cons_of_pos (by simp)] at hx
    rcases mem_cons.mp hx with rfl | hx
    · exact ⟨rfl, rfl⟩
    -- 前からの handle も、同じ thread が同じ名前で開いた
    obtain ⟨hu, hown, hname⟩ := hslot.held x hx
    rcases ho.origin with ⟨hidx, -⟩ | ⟨-, hfree, -⟩
    · rw [← hown, ← hname, ho.again hu, (h.cache.named hs i).mp hidx]
      exact ⟨rfl, rfl⟩
    · simp [hfree] at hu
  · rw [heldOn, show (s.grant t c hs i).held = ⟨t, hs, i⟩ :: s.held from rfl,
      filter_cons_of_pos (by simp), length_cons, ← heldOn, ← hslot.count]
    exact ho.countOpen

theorem Ok.expire
    (hidle : (s.cache.bases i).status = some .idle ∨ (s.cache.bases i).status = some .idleHot) :
    (s.window t (s.cache.expireSpecificBase i t now) i k).Ok := by
  obtain ⟨stamp, hr⟩ := s.cache.rewritten_expireSpecificBase i t now
  have hslot := h.slot i
  have hbase := h.cache.base i
  have hcount : (s.cache.bases i).name.isSome ∧ (s.cache.bases i).countOpen = 0 := by
    rcases hidle with hst | hst
    all_goals
      rw [CacheBase.Ok, hst] at hbase
      exact ⟨hbase.1, hbase.2.2⟩
  have hnone : s.heldOn i = [] := by
    rw [← length_eq_zero_iff, ← hslot.count, hcount.2]
  have hcache : (s.cache.expireSpecificBase i t now).Ok :=
    h.cache.rewritten hr rfl ⟨hcount.1, rfl, hcount.2⟩
  rw [window]
  refine h.touch (i := i) hcache (fun j hj => ?_) (fun u j nm k' hj hu => ?_) (fun _ _ => rfl)
    ⟨fun u nm k' hu => ?_, fun x hx => ?_, ?_⟩
  · exact (congrFun hr.bases j).trans (update_of_ne hj _ _)
  · rcases closing_update hu with ⟨-, hu⟩ | ⟨-, hu⟩
    · exact hu
    · exact absurd (CachePc.closing.inj hu).1.symm hj
  · rw [put_cache, hr.self]
    rcases closing_update hu with ⟨-, hu⟩ | ⟨rfl, hu⟩
    · have hcl := (hslot.closing u nm k' hu).1
      rcases hidle with hst | hst <;> simp [hst] at hcl
    · refine ⟨rfl, rfl, ?_⟩
      rw [← (CachePc.closing.inj hu).2.1, hr.self]
  · rw [heldOn_put, hnone] at hx
    exact absurd hx not_mem_nil
  · rw [heldOn_put, ← hslot.count, put_cache, hr.self]

theorem Ok.expireEnd (ht : s.procs t = .closing i hs k) (hpc : pc.isClosing = false) :
    (s.put t (s.cache.expireEnd i hs now) lock pc).Ok := by
  have hslot := h.slot i
  obtain ⟨hst, hown, hname⟩ := hslot.closing t hs k ht
  obtain ⟨hok, -, stamp, hb⟩ := expireEnd_spec h.cache now hname hst
  have hnone : s.heldOn i = [] := by
    have hbase := h.cache.base i
    rw [CacheBase.Ok, hst] at hbase
    rw [← length_eq_zero_iff, ← hslot.count, hbase.2.2]
  have hself : (s.cache.expireEnd i hs now).bases i = _ := (congrFun hb i).trans (update_self ..)
  refine h.touch (i := i) hok (fun j hj => ?_)
    (fun _ _ _ _ _ hu => (closing_of_update hpc hu).2) (fun _ _ => rfl)
    ⟨fun u nm k' hu => ?_, fun x hx => ?_, ?_⟩
  · exact (congrFun hb j).trans (update_of_ne hj _ _)
  · -- owner は 1 人なので、閉じているのは `t` だけ
    obtain ⟨hne, hu⟩ := closing_of_update hpc hu
    have hown' := (hslot.closing u nm k' hu).2.1
    exact absurd (some.inj (hown'.symm.trans hown)) hne
  · rw [heldOn_put, hnone] at hx
    exact absurd hx not_mem_nil
  · rw [heldOn_put, hnone]
    exact congrArg CacheBase.countOpen hself

end

/-! ## 閉じる -/

theorem heldOn_erase (s : CacheSys n ι) (h : Handle n ι) (i : Fin n) :
    { s with held := s.held.erase h }.heldOn i = (s.heldOn i).erase h :=
  erase_filter.symm

/-- 自分の handle を 1 つ手放した cache と、その後の居場所 -/
structure Closes (s : CacheSys n ι) (t : ι) (i : Fin n) (c : Cache n ι) (b : CacheBase ι)
    (pc : CachePc n) : Prop where
  cache : Cache.Rewritten s.cache c i b
  name : b.name = (s.cache.bases i).name
  count : b.countOpen = (s.cache.bases i).countOpen - 1
  released : Released (s.cache.bases i) b
  pc : pc = .out ∧ b.status ≠ some .closing ∨
    pc = .closing i b.name .forced ∧ b.status = some .closing ∧ b.owner = some t

theorem Ok.close {h : Handle n ι} {c : Cache n ι} {b : CacheBase ι} (hok : s.Ok)
    (hmem : h ∈ s.heldOn i) (hc : s.Closes t i c b pc) :
    ({ s with held := s.held.erase h }.put t c lock pc).Ok := by
  obtain ⟨hr, hname, hcount, hst, hpc⟩ := hc
  have hslot := hok.slot i
  obtain ⟨hused, hown, hnm⟩ := hslot.held h hmem
  have hlen : ((s.heldOn i).erase h).length = b.countOpen := by
    rw [length_erase_of_mem hmem, hcount, hslot.count]
  have hnot : ∀ u nm k, s.procs u ≠ .closing i nm k := fun u nm k hu => by
    have hcl := (hslot.closing u nm k hu).1
    simp [hused] at hcl
  have hb : b.Ok := hst.ok (by rw [hname, hnm]; rfl) (by rw [hown]; rfl)
  refine hok.touch (i := i) (hok.cache.rewritten hr hname hb) (fun j hj => ?_)
    (fun u j nm k hj hu => ?_) (fun j hj => ?_) ⟨fun u nm k hu => ?_, fun x hx => ?_, ?_⟩
  · exact (congrFun hr.bases j).trans (update_of_ne hj _ _)
  · rcases closing_update hu with ⟨-, hu⟩ | ⟨-, hu⟩
    · exact hu
    rcases hpc with ⟨rfl, -⟩ | ⟨rfl, -⟩
    · cases hu
    · exact absurd (CachePc.closing.inj hu).1.symm hj
  · rw [heldOn_put, heldOn_erase]
    refine erase_of_not_mem fun hj' => hj ?_
    have hi := (mem_filter.mp hmem).2
    have hj := (mem_filter.mp hj').2
    simp only [decide_eq_true_eq] at hi hj
    exact hj.symm.trans hi
  · rw [put_cache, hr.self]
    rcases closing_update hu with ⟨-, hu⟩ | ⟨rfl, he⟩
    · exact absurd hu (hnot u nm k)
    rcases hpc with ⟨rfl, -⟩ | ⟨rfl, hcl, hbo⟩
    · cases he
    · exact ⟨hcl, hbo, (CachePc.closing.inj he).2.1⟩
  · -- handle が残るのは、使われたままの場合だけ
    rw [heldOn_put, heldOn_erase] at hx
    rw [put_cache, hr.self]
    have hpos : b.countOpen ≠ 0 := hlen ▸ (length_pos_of_mem hx).ne'
    obtain ⟨-, hxo, hxn⟩ := hslot.held x (mem_of_mem_erase hx)
    rcases hst with ⟨-, hs, ho⟩ | ⟨h0, -⟩ | ⟨h0, -⟩
    · exact ⟨hs, ho.trans hxo, hname.trans hxn⟩
    · exact absurd h0 hpos
    · exact absurd h0 hpos
  · rw [heldOn_put, heldOn_erase, put_cache, hr.self, hlen]

/-! ## 1 step ですること -/

/-- 1 step ですること。cache の整合から分かることも書く。 -/
inductive Acts (cfg : CacheConfig) (s s' : CacheSys n ι) : CacheLabel ι → Prop
  | enter {t pick : ι} {call : CacheCall} {now : Int} {pc : CachePc n} : s.procs t = .out →
      pc.isClosing = false → s' = s.put t s.cache (some t) pc → Acts cfg s s' (.call t call now pick)
  | badId {t pick : ι} {call : CacheCall} {now : Int} {r : ι → Option (CacheReply n)} :
      s' = { s with replies := r } → Acts cfg s s' (.call t call now pick)
  | close {t pick : ι} {call : CacheCall} {now : Int} {x : Handle n ι} {i : Fin n} {c : Cache n ι}
      {b : CacheBase ι} {pc : CachePc n} {r : ι → Option (CacheReply n)} : s.procs t = .out →
      x ∈ s.heldOn i → s.Closes t i c b pc →
      { { s with held := s.held.erase x }.put t c none pc with replies := r }.signal i pick =
        some s' → Acts cfg s s' (.call t call now pick)
  | grant {t pick : ι} {now : Int} {hs : Hashstr} {c : Cache n ι} {i : Fin n} :
      s.procs t = .opening hs → Cache.Opened s.cache c hs t i →
      (s.grant t c hs i).signal i pick = some s' → Acts cfg s s' (.run t now pick)
  | refuse {t pick : ι} {now : Int} {hs : Hashstr} {r : CacheReply n} {i : Fin n} :
      s.procs t = .opening hs → s.cache.basesByName[hs]? = some i →
      (s.cache.bases i).status = some .used → (s.leave t s.cache r).signal i pick = some s' →
      Acts cfg s s' (.run t now pick)
  | sleep {t pick : ι} {now : Int} {hs : Hashstr} {i : Fin n} {inUse : Bool} :
      s.procs t = .opening hs → s.cache.basesByName[hs]? = some i → s.cache.sleepsOn cfg i t →
      (s.cache.bases i).status = some (if inUse then .used else .closing) →
      s' = s.sleep t hs i inUse → Acts cfg s s' (.run t now pick)
  | again {t pick : ι} {now : Int} : s' = s → Acts cfg s s' (.run t now pick)
  | swept {t pick : ι} {now : Int} {limit : SweepLimit} {nb : Nat} : s.procs t = .sweeping limit nb →
      s' = s.leave t s.cache (.expired nb) → Acts cfg s s' (.run t now pick)
  | expire {t pick : ι} {now : Int} {i : Fin n} {k : AfterExpire} :
      (∃ hs, s.procs t = .opening hs ∧ k = .reopen hs) ∨
        (∃ limit nb, s.procs t = .sweeping limit nb ∧ k = .sweep limit nb) →
      (s.cache.bases i).status = some .idle ∨ (s.cache.bases i).status = some .idleHot →
      (s.window t (s.cache.expireSpecificBase i t now) i k).signal i pick = some s' →
      Acts cfg s s' (.run t now pick)
  | expired {t pick : ι} {now : Int} {i : Fin n} {hs : Option Hashstr} {k : AfterExpire}
      {lock : Option ι} {pc : CachePc n} {r : ι → Option (CacheReply n)} :
      s.procs t = .closing i hs k → pc.isClosing = false →
      (∀ want, k = .reopen want → pc = .opening want) →
      { s.put t (s.cache.expireEnd i hs now) lock pc with replies := r }.signal i pick = some s' →
      Acts cfg s s' (.resume t now pick)
  | woken {t pick : ι} {now : Int} {hs : Hashstr} {i : Fin n} {inUse : Bool} :
      s.procs t = .waiting hs i inUse → (Cache.cond i, t) ∉ s.queue →
      s' = s.put t (awake s.cache i inUse) (some t) (.opening hs) →
      Acts cfg s s' (.resume t now pick)
  | gaveUp {t pick : ι} {now : Int} {hs : Hashstr} {i : Fin n} {inUse : Bool} {r : CacheReply n} :
      s.procs t = .timedOut hs i inUse →
      (s.leave t (awake s.cache i inUse) r).signal i pick = some s' →
      Acts cfg s s' (.resume t now pick)
  | timeout {t : ι} {hs : Hashstr} {i : Fin n} {inUse : Bool} : s.procs t = .waiting hs i inUse →
      s' = { s.put t s.cache s.lock (.timedOut hs i inUse) with
        queue := s.queue.erase (Cache.cond i, t) } → Acts cfg s s' (.timeout t)
  | stray {t : ι} {i : Fin n} : s' = { s with queue := s.queue.erase (Cache.cond i, t) } →
      Acts cfg s s' (.stray t)

theorem Ok.closeStep_acts {x : Handle n ι} {call : CacheCall} {force : Bool} (hok : s.Ok)
    (ht : s.procs t = .out) (hmem : x ∈ s.heldOn i) (hx : x.thread = t)
    (hs : closeStep cfg { s with held := s.held.erase x } t i force now pick = some s') :
    Acts cfg s s' (.call t call now pick) := by
  obtain ⟨hused, hown, -⟩ := (hok.slot i).held x hmem
  have hdec := s.cache.rewritten_modify i (fun b => { b with countOpen := b.countOpen - 1 }) rfl
  unfold CacheSys.closeStep at hs
  rw [hused] at hs
  dsimp only at hs
  rw [hdec.self] at hs
  split at hs
  next h0 =>
    refine .close ht hmem ⟨hdec, rfl, rfl, .inl ⟨h0, hused, rfl⟩, .inl ⟨rfl, ?_⟩⟩ hs
    rw [hused]
    nofun
  next h0 =>
    rw [not_not] at h0
    split at hs
    next =>
      obtain ⟨stamp, hmove⟩ := rewritten_moveToList _ i .closing now
      have hr := hdec.trans hmove
      rw [window, expireBegin, hr.self] at hs
      rw [hdec.self] at hr hs
      exact .close ht hmem ⟨hr, rfl, rfl, .inr (.inr ⟨h0, rfl, rfl⟩),
        .inr ⟨rfl, rfl, hown.trans (congrArg some hx)⟩⟩ hs
    next =>
      have hset := (s.cache.modify i fun b => { b with countOpen := b.countOpen - 1 }).rewritten_modify
        i ({ · with owner := none }) rfl
      obtain ⟨stamp, hmove⟩ := rewritten_moveToList _ i _ now
      have hr := (hdec.trans hset).trans hmove
      rw [hset.self, hdec.self] at hr
      refine .close ht hmem ⟨hr, rfl, rfl, .inr (.inl ⟨h0, ?_, rfl⟩), .inl ⟨rfl, ?_⟩⟩ hs
      all_goals
        split <;> simp

theorem Ok.callStep_acts {call : CacheCall} (h : s.Ok) (ht : s.procs t = .out)
    (hstep : callStep cfg s t call now pick = some s') : Acts cfg s s' (.call t call now pick) := by
  have hput : ∀ {call : CacheCall} {pc : CachePc n}, pc.isClosing = false →
      (if s.lock = none then some (s.put t s.cache (some t) pc) else none) = some s' →
      Acts cfg s s' (.call t call now pick) := by
    intro call pc hpc he
    split at he
    next =>
      cases he
      exact .enter ht hpc rfl
    next => cases he
  cases call with
  | openAndLockBase hs | expireAll | expire max fin => exact hput rfl hstep
  | unlockAndCloseBase bd force =>
    unfold CacheSys.callStep at hstep
    dsimp only at hstep
    split at hstep
    next =>
      cases hstep
      exact .badId rfl
    next i _ =>
      split at hstep
      next => cases hstep
      next x hx =>
        split at hstep
        next =>
          have hp := List.find?_some hx
          simp only [decide_eq_true_eq] at hp
          have hmem : x ∈ s.heldOn i :=
            mem_filter.mpr ⟨mem_of_find?_eq_some hx, by simpa using hp.2⟩
          exact h.closeStep_acts ht hmem hp.1 hstep
        next => cases hstep

theorem Ok.runStep_acts (h : s.Ok) (hstep : step cfg s (.run t now pick) = some s') :
    Acts cfg s s' (.run t now pick) := by
  unfold step at hstep
  dsimp only at hstep
  split at hstep
  next =>
    split at hstep
    next hs ht =>
      have hspec := openAttempt_spec h.cache cfg hs t now
      unfold openStep at hstep
      generalize s.cache.openAttempt cfg hs t now = attempt at hspec hstep
      cases attempt with
      | opened c i => exact .grant ht hspec hstep
      | refused e i => exact .refuse ht hspec.1 hspec.2 hstep
      | wait i inUse => exact .sleep ht hspec.1 hspec.2.1 hspec.2.2 (some.inj hstep).symm
      | expire i => exact .expire (.inl ⟨hs, ht, rfl⟩) hspec.2.1 hstep
      | again => exact .again (some.inj hstep).symm
      | abort => cases hstep
    next limit nb ht =>
      unfold sweepStep at hstep
      split at hstep
      next => exact .swept ht (some.inj hstep).symm
      next =>
        split at hstep
        next => exact .swept ht (some.inj hstep).symm
        next i hi =>
          exact .expire (.inr ⟨limit, nb, ht, rfl⟩) (firstIdleBase_eq_some h.cache hi) hstep
    next => cases hstep
  next => cases hstep

theorem resumeStep_acts (hstep : resumeStep cfg s t now pick = some s') :
    Acts cfg s s' (.resume t now pick) := by
  unfold CacheSys.resumeStep at hstep
  split at hstep
  next i hs k ht =>
    split at hstep
    next => exact .expired ht rfl (fun _ he => by rw [AfterExpire.reopen.inj he]) hstep
    next => exact .expired ht rfl nofun hstep
    next => exact .expired ht rfl nofun hstep
  next hs i inUse ht =>
    split at hstep
    next => cases hstep
    next hnot => exact .woken ht hnot (some.inj hstep).symm
  next ht => exact .gaveUp ht hstep
  next => cases hstep

/-- **どの step も `Acts` のどれかである。** -/
theorem Ok.step_acts {l : CacheLabel ι} (h : s.Ok) (hstep : step cfg s l = some s') :
    Acts cfg s s' l := by
  cases l with
  | call t call now pick =>
    simp only [step] at hstep
    split at hstep
    next ht => exact h.callStep_acts ht hstep
    next => cases hstep
  | run t now pick => exact h.runStep_acts hstep
  | resume t now pick =>
    simp only [step] at hstep
    split at hstep
    next => exact resumeStep_acts hstep
    next => cases hstep
  | timeout t =>
    simp only [step] at hstep
    split at hstep
    next ht =>
      split at hstep
      next => exact .timeout ht (some.inj hstep).symm
      next => cases hstep
    next => cases hstep
  | stray t =>
    simp only [step] at hstep
    split at hstep
    next => exact .stray (some.inj hstep).symm
    next => cases hstep

/-! ## run -/

theorem ok_init (n : Nat) (ι : Type) [DecidableEq ι] (now : Int) : (init n ι now).Ok := by
  obtain ⟨hok, hst⟩ := resetBases_spec n ι now
  refine ⟨hok, fun i => ⟨nofun, nofun, ?_⟩⟩
  have hbase := hok.base i
  rw [CacheBase.Ok, hst i] at hbase
  by_cases hi : i.val ≠ 0
  · rw [if_pos hi] at hbase
    exact hbase.2.2
  · rw [if_neg hi] at hbase
    exact hbase.2.2

/-- **どの step も不変条件を保つ。** -/
theorem step_ok {l : CacheLabel ι} (h : s.Ok) (hstep : step cfg s l = some s') : s'.Ok := by
  cases h.step_acts hstep with
  | enter _ hpc he => exact he ▸ h.put hpc
  | badId he | stray he => exact he ▸ ⟨h.cache, h.slot⟩
  | @close t _ _ _ x _ c _ pc _ _ hmem hc hs =>
    have hput : ({ s with held := s.held.erase x }.put t c none pc).Ok := h.close hmem hc
    refine Ok.signal ?_ hs
    exact ⟨hput.cache, hput.slot⟩
  | grant _ ho hs => exact (h.grant ho).signal hs
  | refuse _ _ _ hs => exact h.leave.signal hs
  | sleep _ _ _ _ he => exact he ▸ h.sleep
  | again he => exact he ▸ h
  | swept _ he => exact he ▸ h.leave
  | expire _ hidle hs => exact (h.expire hidle).signal hs
  | @expired t _ now i nm _ lock pc _ ht hpc _ hs =>
    have hput : (s.put t (s.cache.expireEnd i nm now) lock pc).Ok := h.expireEnd ht hpc
    refine Ok.signal ?_ hs
    exact ⟨hput.cache, hput.slot⟩
  | woken _ _ he => exact he ▸ h.awake rfl
  | gaveUp _ hs => exact (h.awake rfl).leave_of_put.signal hs
  | @timeout t hs i inUse _ he =>
    have hput : (s.put t s.cache s.lock (.timedOut hs i inUse)).Ok := h.put rfl
    exact he ▸ ⟨hput.cache, hput.slot⟩

theorem ok_of_reach {ok : CacheSys n ι → CacheLabel ι → Prop}
    (h : Reach (step cfg) ok (init n ι now) s) : s.Ok :=
  h.invariant (ok_init n ι now) fun hs _ hstep => step_ok hs hstep

/-! ## 整合と排他 -/

def nameA : Hashstr := Hashstr.create (ascii "A")

def nameB : Hashstr := Hashstr.create (ascii "B")

/-- **cache の整合。** どの run のどの状態でも、4 つの list は互いに素な双方向リストで、それぞれの status の slot を並べ、木は
各名前をただ 1 つの slot に対応させる。使われている slot は owner を持ち、open 数が正。 -/
theorem cache_consistent (cfg : CacheConfig) (now : Int) (s : CacheSys n ι)
    (h : Reachable (step cfg) (init n ι now) s) :
    (∃ lists : BaseStatus → List (Fin n),
      (∀ st ≠ .closing, Chain s.cache.link (s.cache.beacon st) (lists st) ∧
        ∀ i, i ∈ lists st ↔ (s.cache.bases i).status = some st) ∧
      ∀ st st', st ≠ .closing → st' ≠ .closing → st ≠ st' → (lists st).Disjoint (lists st')) ∧
    (∀ hs i, s.cache.basesByName[hs]? = some i ↔ (s.cache.bases i).name = some hs) ∧
    (∀ i, (s.cache.bases i).name.isSome ↔
      (s.cache.bases i).status ≠ none ∧ (s.cache.bases i).status ≠ some .free) ∧
    ∀ i, (s.cache.bases i).status = some .used ↔
      (s.cache.bases i).owner.isSome ∧ 0 < (s.cache.bases i).countOpen := by
  have hok := ok_of_reach h
  refine ⟨?_, hok.cache.named, fun i => ?_, fun i => ?_⟩
  · choose lists hlists using hok.cache.lists
    refine ⟨fun st => if hst : st ≠ .closing then lists st hst else [], fun st hst => ?_,
      fun st st' hst hst' hne i hi hi' => hne ?_⟩
    · simp only [dif_pos hst]
      exact hlists st hst
    simp only [dif_pos hst, (hlists st hst).2] at hi
    simp only [dif_pos hst', (hlists st' hst').2] at hi'
    exact some.inj (hi.symm.trans hi')
  all_goals
    have hbase := hok.cache.base i
    rw [CacheBase.Ok] at hbase
    split at hbase
    all_goals simp_all

/-- thread 0 が A を 2 重に、1 が B を開き、2 が A を待って眠る run -/
def sharingRun : List (CacheLabel Nat) :=
  [.call 0 (.openAndLockBase nameA) 1 0, .run 0 1 0, .call 0 (.openAndLockBase nameA) 2 0,
    .run 0 2 0, .call 1 (.openAndLockBase nameB) 3 0, .run 1 3 0,
    .call 2 (.openAndLockBase nameA) 4 0, .run 2 4 0]

theorem sharingRun_spec : ∃ s, exec (step {}) (init 4 Nat 0) sharingRun = some s ∧
    s.held = [⟨1, nameB, 2⟩, ⟨0, nameA, 1⟩, ⟨0, nameA, 1⟩] ∧ s.queue = [(1, 2)] ∧
    s.lock = none := by
  decide +kernel

theorem cache_consistent_sharingRun : ∃ s, exec (step {}) (init 4 Nat 0) sharingRun = some s ∧
    (s.cache.bases 1).owner.isSome ∧ 0 < (s.cache.bases 1).countOpen := by
  obtain ⟨s, hs, hused⟩ : ∃ s ∈ exec (step {}) (init 4 Nat 0) sharingRun,
      (s.cache.bases 1).status = some .used := by
    decide +kernel
  exact ⟨s, hs, ((cache_consistent {} 0 s (reachable_of_exec _ hs)).2.2.2 1).mp hused⟩

/-- **handle の排他。** 同じ時に開いている 2 つの handle は名前が同じなら thread も slot も同じで、
slot が同じなら名前も同じである。 -/
theorem handles_exclusive (cfg : CacheConfig) (now : Int) (s : CacheSys n ι)
    (h : Reachable (step cfg) (init n ι now) s) (a b : Handle n ι) (ha : a ∈ s.held)
    (hb : b ∈ s.held) :
    (a.name = b.name → a.thread = b.thread ∧ a.slot = b.slot) ∧
      (a.slot = b.slot → a.name = b.name) := by
  have hok := ok_of_reach h
  have hheld : ∀ x ∈ s.held, (s.cache.bases x.slot).owner = some x.thread ∧
      (s.cache.bases x.slot).name = some x.name := fun x hx =>
    ((hok.slot x.slot).held x (mem_filter.mpr ⟨hx, by simp⟩)).2
  obtain ⟨hao, han⟩ := hheld a ha
  obtain ⟨hbo, hbn⟩ := hheld b hb
  refine ⟨fun hn => ?_, fun hsl => ?_⟩
  · have hai := (hok.cache.named a.name a.slot).mpr han
    have hbi := (hok.cache.named b.name b.slot).mpr hbn
    rw [hn] at hai
    have hsl : a.slot = b.slot := some.inj (hai.symm.trans hbi)
    rw [hsl] at hao
    exact ⟨some.inj (hao.symm.trans hbo), hsl⟩
  · rw [hsl] at han
    exact some.inj (han.symm.trans hbn)

theorem handles_exclusive_sharingRun : ∃ s, exec (step {}) (init 4 Nat 0) sharingRun = some s ∧
    ∀ b ∈ s.held, b.name = nameA → b.thread = 0 ∧ b.slot = 1 := by
  obtain ⟨s, hs, hheld, -⟩ := sharingRun_spec
  refine ⟨s, hs, fun b hb hn => ?_⟩
  have ha : (⟨0, nameA, 1⟩ : Handle 4 Nat) ∈ s.held := by simp [hheld]
  obtain ⟨ht, hsl⟩ := (handles_exclusive {} 0 s (reachable_of_exec _ hs) _ b ha hb).1 hn.symm
  exact ⟨ht.symm, hsl.symm⟩

end CacheSys

end Redcurrant.Sqliterepo
