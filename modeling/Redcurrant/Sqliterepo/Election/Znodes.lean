import Redcurrant.Sqliterepo.Election.Zookeeper

/-!
# member の持つ znode

process `i` の ZooKeeper の呼び出しが失敗しない run で、`i` の持つ znode の数を数える。
-/

namespace Redcurrant.Sqliterepo.Election

open Infra List Function Proc Member Completion

/-! ## 済んでいない作成と削除 -/

/-- 作成と削除の、待つ依頼の path と、届いていない通知 -/
structure Traffic where
  (creates leaves createds : List Bytes)
  lefts : List Int

def ZkReq.create? : ZkReq → Option Bytes
  | .create path => some path
  | _ => none

def ZkReq.leave? : ZkReq → Option Bytes
  | .leave path => some path
  | _ => none

def Completion.created? : Completion → Option Bytes
  | .created path => some path
  | _ => none

def Completion.left? : Completion → Option Int
  | .left zrc => some zrc
  | _ => none

def Proc.traffic (p : Proc) : Traffic :=
  ⟨p.reqs.filterMap ZkReq.create?, p.reqs.filterMap ZkReq.leave?,
    p.comps.filterMap Completion.created?, p.comps.filterMap Completion.left?⟩

def Traffic.add (t : Traffic) (l : List ZkReq) : Traffic :=
  { t with
    creates := t.creates ++ l.filterMap ZkReq.create?, leaves := t.leaves ++ l.filterMap ZkReq.leave? }

open Traffic

@[simp] theorem Traffic.add_nil (t : Traffic) : t.add [] = t := by
  simp [add]

theorem Traffic.add_append (t : Traffic) (l l' : List ZkReq) :
    t.add (l ++ l') = (t.add l).add l' := by
  simp [add]

theorem traffic_append (p : Proc) (c : Ctx) (l : List ZkReq) :
    traffic { p with ctx := c, reqs := p.reqs ++ l } = p.traffic.add l := by
  simp [traffic, add]

variable {k : Nat}

theorem eraseIdx_split {α : Type} {l : List α} {a : α} (h : l[k]? = some a) :
    ∃ u v, l = u ++ a :: v ∧ l.eraseIdx k = u ++ v := by
  obtain ⟨hk, rfl⟩ := List.getElem?_eq_some_iff.mp h
  refine ⟨l.take k, l.drop (k + 1), ?_, eraseIdx_eq_take_drop_succ ..⟩
  rw [getElem_cons_drop, take_append_drop]

theorem filterMap_eraseIdx_none {α β : Type} {f : α → Option β} {l : List α} {a : α}
    (h : l[k]? = some a) (ha : f a = none) : (l.eraseIdx k).filterMap f = l.filterMap f := by
  obtain ⟨u, v, hl, he⟩ := eraseIdx_split h
  rw [he, hl]
  simp [ha]

theorem filterMap_eraseIdx_some {α β : Type} {f : α → Option β} {l : List α} {a : α} {b c : β}
    (h : l[k]? = some a) (ha : f a = some b) (hl : l.filterMap f = [c]) :
    b = c ∧ (l.eraseIdx k).filterMap f = [] := by
  obtain ⟨u, v, hs, he⟩ := eraseIdx_split h
  rw [hs, filterMap_append, filterMap_cons_some ha] at hl
  rcases append_eq_singleton_iff.mp hl with ⟨hu, hv⟩ | ⟨_, hv⟩
  · injection hv with hb hv
    exact ⟨hb, by rw [he, filterMap_append, hu, hv, append_nil]⟩
  · cases hv

/-! ## member と znode の組 -/

variable {ι : Type}

/-- member、znode、済んでいない作成と削除の、起こりうる組 -/
inductive Zone (m : Member) (own : List (Znode ι)) : Traffic → Prop
  | idle : m.step = .none ∨ m.step = .failed → m.myid = -1 → own = [] → Zone m own ⟨[], [], [], []⟩
  | asking {path : Bytes} : m.step = .candreq → own = [] → Zone m own ⟨[path], [], [], []⟩
  | born {nd : Znode ι} : m.step = .candreq → own = [nd] → Zone m own ⟨[], [], [nd.name], []⟩
  | joined {nd : Znode ι} : m.step.joined = true → m.myid = nd.seq → own = [nd] →
      Zone m own ⟨[], [], [], []⟩
  | leaving {nd : Znode ι} : m.step = .leaving → own = [nd] → Zone m own ⟨[], [nd.name], [], []⟩
  -- FAILED からは番号を持たないまま削除を頼む
  | leavingNone {path : Bytes} : m.step = .leaving → own = [] → Zone m own ⟨[], [path], [], []⟩
  | gone {zrc : Int} : zrc = 0 ∨ zrc = zNoNode → m.step = .leaving → own = [] →
      Zone m own ⟨[], [], [], [zrc]⟩

variable {m m' : Member} {own : List (Znode ι)} {t : Traffic} {env : Env} {evt : Event} {c c' : Ctx}

theorem Zone.congr (h : Zone m own t) (hs : m'.step = m.step) (hi : m'.myid = m.myid) :
    Zone m' own t := by
  cases h with
  | idle h h' ho => exact .idle (by rwa [hs]) (by rwa [hi]) ho
  | asking h ho => exact .asking (by rwa [hs]) ho
  | born h ho => exact .born (by rwa [hs]) ho
  | joined h h' ho => exact .joined (by rwa [hs]) (by rwa [hi]) ho
  | leaving h ho => exact .leaving (by rwa [hs]) ho
  | leavingNone h ho => exact .leavingNone (by rwa [hs]) ho
  | gone hz h ho => exact .gone hz (by rwa [hs]) ho

theorem Zone.of_joined (h : Zone m own t) (hj : m.step.joined = true) :
    ∃ nd, own = [nd] ∧ m.myid = nd.seq ∧ t = ⟨[], [], [], []⟩ := by
  cases h with
  | joined _ hi ho => exact ⟨_, ho, hi, rfl⟩
  | idle hs => rcases hs with hs | hs <;> simp [hs, Step.joined] at hj
  | asking hs | born hs | leaving hs | leavingNone hs | gone _ hs => simp [hs, Step.joined] at hj

theorem Zone.of_idle (h : Zone m own t) (hs : m.step = .none ∨ m.step = .failed) :
    own = [] ∧ m.myid = -1 ∧ t = ⟨[], [], [], []⟩ := by
  cases h with
  | idle _ hi ho => exact ⟨ho, hi, rfl⟩
  | joined hj => rcases hs with hs | hs <;> simp [hs, Step.joined] at hj
  | asking h | born h | leaving h | leavingNone h | gone _ h =>
    rcases hs with hs | hs <;> simp [hs] at h

/-! ## 遷移の途中 -/

/-- 遷移の途中の `c` は出した依頼を加えて `Zone` にある。一覧を頼むのは znode を持つときだけ。 -/
structure Tracks (own : List (Znode ι)) (t : Traffic) (c : Ctx) : Prop where
  zone : Zone c.member own (t.add (zkSent c.sent))
  list : .list ∈ zkSent c.sent → own ≠ []
  name : ∀ nd ∈ own, nd.name = nodeName c.member.key nd.seq

theorem Tracks.congr (h : Tracks own t c) (hs : c'.member.step = c.member.step)
    (hi : c'.member.myid = c.member.myid) (hk : c'.member.key = c.member.key)
    (hz : zkSent c'.sent = zkSent c.sent) : Tracks own t c' := by
  refine ⟨?_, ?_, ?_⟩
  · rw [hz]; exact h.zone.congr hs hi
  · rw [hz]; exact h.list
  · rw [hk]; exact h.name

theorem zkSent_append (l : List Request) (r : Request) :
    zkSent (l ++ [r]) = zkSent l ++ zkSent [r] := filterMap_append

@[simp] theorem zkSent_deferUse (env : Env) (c : Ctx) :
    zkSent (deferUse env c).2.sent = zkSent c.sent := by
  unfold deferUse
  split
  · rfl
  split
  · rfl
  · exact (zkSent_append _ _).trans (append_nil _)

@[simp] theorem zkSent_deferGetvers (env : Env) (c : Ctx) :
    zkSent (deferGetvers env c).sent = zkSent c.sent := by
  unfold deferGetvers
  split
  · rfl
  · exact (zkSent_append _ _).trans (append_nil _)

@[simp] theorem zkSent_flushPipefrom (c : Ctx) : zkSent (flushPipefrom c).sent = zkSent c.sent := by
  rcases flushPipefrom_cases c with he | ⟨source, he⟩ <;> rw [he]
  exact (zkSent_append _ _).trans (append_nil _)

theorem tracks_deferUse (env : Env) (h : Tracks own t c) : Tracks own t (deferUse env c).2 :=
  h.congr (by simp) (by simp) (by simp) (by simp)

theorem tracks_deferGetvers (env : Env) (h : Tracks own t c) : Tracks own t (deferGetvers env c) :=
  h.congr (by simp) (by simp) (by simp) (by simp)

/-- どの ZooKeeper の呼び出しも受け付けられる -/
def Env.calls (env : Env) : Bool := [ZkCall.create, .watch, .list, .ask, .leave].all env.zkOk

theorem Env.zkOk_of_calls (h : env.calls = true) (call : ZkCall) : env.zkOk call = true := by
  refine all_eq_true.mp h call ?_
  cases call <;> simp

theorem tracks_move {f : Member → Member} (h : Tracks own t c) (hj : c.member.step.joined = true)
    (hj' : (f c.member).step.joined = true) (hi : (f c.member).myid = c.member.myid)
    (hk : (f c.member).key = c.member.key) : Tracks own t (c.update f) := by
  obtain ⟨nd, ho, hid, ht⟩ := h.zone.of_joined hj
  refine ⟨?_, h.list, fun nd hnd => ?_⟩
  · show Zone _ _ (t.add (zkSent c.sent))
    rw [ht]
    exact .joined hj' (hi.trans hid) ho
  · rw [show (c.update f).member.key = c.member.key from hk]
    exact h.name nd hnd

theorem tracks_resync (h : Tracks own t c) : Tracks own t (c.update resyncIfNotPending) := by
  have : c.member.resyncIfNotPending.step = c.member.step ∧
      c.member.resyncIfNotPending.myid = c.member.myid ∧
      c.member.resyncIfNotPending.key = c.member.key := by
    unfold resyncIfNotPending
    split <;> exact ⟨rfl, rfl, rfl⟩
  exact h.congr this.1 this.2.1 this.2.2 rfl

theorem tracks_count (v : Verdict) (h : Tracks own t c) : Tracks own t (c.update v.count) := by
  have : (v.count c.member).myid = c.member.myid ∧ (v.count c.member).key = c.member.key := by
    cases v <;> · simp only [Verdict.count, countGetvers]; split <;> exact ⟨rfl, rfl⟩
  exact h.congr (count_step v c.member) this.1 this.2 rfl

section

variable (hz : env.calls = true) (h : Tracks own t c)
  (hs : c.member.step.joined = true ∨ c.member.step = .failed)
include hz h hs

theorem tracks_becomeLeaver : Tracks own t (becomeLeaver env c) := by
  unfold becomeLeaver
  rw [if_pos (Env.zkOk_of_calls hz _)]
  refine ⟨?_, ?_, h.name⟩
  · rw [Ctx.send, zkSent_append, add_append]
    rcases hs with hj | hf
    · obtain ⟨nd, rfl, hi, ht⟩ := h.zone.of_joined hj
      have hp : c.member.fullpath = nd.name := by
        rw [h.name nd (mem_singleton_self _), fullpath, hi]
        rfl
      rw [show (c.update _).sent = c.sent from rfl, ht]
      show Zone _ _ ⟨[], [c.member.fullpath], [], []⟩
      rw [hp]
      exact .leaving rfl rfl
    · obtain ⟨rfl, -, ht⟩ := h.zone.of_idle (.inr hf)
      rw [show (c.update _).sent = c.sent from rfl, ht]
      exact .leavingNone rfl rfl
  · intro hl
    refine h.list ?_
    simpa [Ctx.send, Ctx.update, zkSent] using hl

omit hz h hs in
theorem tracks_becomeCandidate (hz : env.calls = true) (h : Tracks own t c)
    (hj : c.member.step.joined = true) : Tracks own t (becomeCandidate env c) := by
  obtain ⟨nd, rfl, hi, ht⟩ := h.zone.of_joined hj
  unfold becomeCandidate
  rw [if_pos (Env.zkOk_of_calls hz _)]
  refine ⟨?_, fun _ => cons_ne_nil _ _, h.name⟩
  rw [Ctx.send, zkSent_append, add_append, show (c.update _).sent = c.sent from rfl, ht]
  exact .joined rfl hi rfl

omit hz h hs in
theorem tracks_restart_idle (h : Tracks own t c)
    (hs : c.member.step = .none ∨ c.member.step = .failed) :
    Tracks own t (restartElection env c) := by
  obtain ⟨rfl, hi, ht⟩ := h.zone.of_idle hs
  have hsent : zkSent (candreqCtx env c).sent = zkSent c.sent := zkSent_deferUse ..
  rcases restartElection_cases env c with ⟨hpos, -⟩ | he | he | he
  · rw [hi] at hpos
    cases hpos
  · rw [he]
    refine ⟨?_, h.list, by simp⟩
    show Zone _ _ (t.add (zkSent c.sent))
    rw [ht]
    exact .idle (.inl rfl) rfl rfl
  · rw [he]
    refine ⟨?_, fun hh => h.list (hsent ▸ hh), by simp⟩
    rw [show zkSent (Ctx.setStatus _ _ _).sent = zkSent c.sent from hsent, ht]
    exact .idle (.inr rfl) (candreqCtx_myid env c) rfl
  · rw [he]
    refine ⟨?_, fun hh => h.list ?_, by simp⟩
    · rw [Ctx.send, zkSent_append, hsent, add_append, ht]
      exact .asking (candreqCtx_step env c) rfl
    · rw [Ctx.send, zkSent_append, hsent] at hh
      simpa [zkSent] using hh

theorem tracks_memberPing : Tracks own t (memberPing env c) := by
  have hu := tracks_deferUse env h
  rcases memberPing_cases env c with he | he | he <;> rw [he]
  · exact h
  · exact hu
  · exact tracks_becomeLeaver hz hu (by rw [deferUse_step]; exact hs)

end

section

variable (hz : env.calls = true) (h : Tracks own t c) (hj : c.member.step.joined = true)
include hz h hj

theorem tracks_finishPrelost : Tracks own t (finishPrelost env c) := by
  have h1 : Tracks own t c.clearErrors := h.congr rfl rfl rfl rfl
  rcases finishPrelost_cases env c with he | he | he | he | ⟨-, -, he⟩ <;> rw [he]
  · exact h
  · exact tracks_becomeLeaver hz h1 (.inl hj)
  · exact tracks_resync h1
  · exact h1
  · exact tracks_move h1 hj rfl rfl rfl

theorem tracks_finishPrelead : Tracks own t (finishPrelead env c) := by
  have h1 : Tracks own t c.clearErrors := h.congr rfl rfl rfl rfl
  rcases finishPrelead_cases env c with he | he | he <;> rw [he]
  · exact h
  · exact tracks_becomeLeaver hz h1 (.inl hj)
  · exact tracks_move h1 hj rfl rfl rfl

theorem tracks_manageList {ids : List Int} (h0 : c.member.myid = 0 → 0 ∈ ids) :
    Tracks own t (manageList env ids c) := by
  have h1 : Tracks own t (c.setStatus env .candok) := tracks_move h hj rfl rfl rfl
  have h2 : Tracks own t (prelostCtx env ids c) := tracks_move h1 rfl rfl rfl rfl
  rcases manageList_cases env c ids with ⟨hin, he⟩ | ⟨-, -, he⟩ | ⟨-, -, he | ⟨path, he⟩⟩ <;> rw [he]
  · obtain ⟨nd, -, hi, -⟩ := h.zone.of_joined hj
    have hpos : 0 < c.member.myid := by
      by_contra hle
      have hid : c.member.myid = 0 := by omega
      have hin' : c.member.inGroup ids = true := inGroup_iff.mpr ⟨hid.ge, by rw [hid]; exact h0 hid⟩
      rw [hin'] at hin
      cases hin
    unfold restartElection
    rw [if_pos (show 0 < (c.setStatus env .candok).member.myid from hpos)]
    exact tracks_becomeLeaver hz h1 (.inl rfl)
  · exact tracks_deferGetvers env (tracks_move h1 rfl rfl rfl rfl)
  · exact tracks_becomeLeaver hz h2 (.inl rfl)
  · refine tracks_deferGetvers env (h2.congr rfl rfl rfl ?_)
    exact (zkSent_append _ _).trans (append_nil _)

end

/-- 作成や削除の結果でも、接続の失敗でもない event -/
def Event.quiet : Event → Bool
  | .disconnected | .createOk _ | .createKo | .leaveOk | .leaveKo => false
  | _ => true

section

variable (hz : env.calls = true) (h : Tracks own t c) (hq : evt.quiet = true)
  (hexit : evt = .exiting → c.member.step ≠ .candreq)
  (hlist : ∀ ids nd, evt = .listOk ids → own = [nd] → nd.seq = 0 → 0 ∈ ids)
include hz h hq hexit hlist

theorem acts_tracks (ha : Acts env c evt c') : Tracks own t c' := by
  cases ha with
  | ignored _ => exact h
  | disconnect => cases hq
  | restart hs => exact tracks_restart_idle h hs
  | restartResync hs =>
    refine tracks_restart_idle (tracks_resync h) (.inr ?_)
    rw [← hs]
    simp only [Ctx.update, resyncIfNotPending]
    split <;> rfl
  | exitEarly hs => exact absurd hs (hexit rfl)
  | leave hj => exact tracks_becomeLeaver hz h (.inl hj)
  | leaveAgain _ => cases hq
  | created _ _ => cases hq
  | unwatched _ _ => cases hq
  | notCreated _ => cases hq
  | ping hs => exact tracks_memberPing hz h hs
  | resync _ => exact tracks_resync h
  | list hs =>
    have hj : c.member.step.joined = true := by rw [hs]; rfl
    obtain ⟨nd, ho, hi, -⟩ := h.zone.of_joined hj
    exact tracks_manageList hz h hj fun h0 => hlist _ nd rfl ho (by omega)
  | candidate hj => exact tracks_becomeCandidate hz h hj
  | retry _ => exact (tracks_deferGetvers env h).congr rfl rfl rfl rfl
  | masterOk hs =>
    refine tracks_finishPrelost hz (h.congr rfl rfl rfl rfl) ?_
    simp [Ctx.update, setMasterUrl, hs, Step.joined]
  | @replyLost v hs _ =>
    exact tracks_finishPrelost hz (tracks_count v h) (by simp [Ctx.update, hs, Step.joined])
  | outdatedLost _ => exact tracks_resync (tracks_count .outdated h)
  | @replyLead v hs _ =>
    exact tracks_finishPrelead hz (tracks_count v h) (by simp [Ctx.update, hs, Step.joined])
  | outdatedLead hs =>
    exact tracks_becomeLeaver hz (tracks_count .outdated h) (.inl (by
      show (Verdict.count .outdated c.member).step.joined = true
      rw [count_step, hs]
      rfl))
  | resynced hs _ _ => exact tracks_move h (by rw [hs]; rfl) rfl rfl rfl
  | askUse _ => exact h.congr rfl rfl rfl rfl
  | left _ => cases hq
  | lostResync hs =>
    refine tracks_move (h.congr rfl rfl rfl rfl) ?_ rfl rfl rfl
    show c.member.step.joined = true
    rw [hs]
    rfl
  | forget hs =>
    obtain ⟨rfl, hi, ht⟩ := h.zone.of_idle (.inr hs)
    refine ⟨?_, h.list, by simp⟩
    show Zone _ _ (t.add (zkSent c.sent))
    rw [ht]
    exact .idle (.inr rfl) rfl rfl

omit hz h hq hexit hlist in
theorem tracks_flush (h : Tracks own t c) : Tracks own t (flushUse env (flushPipefrom c)) := by
  have hp : Tracks own t (flushPipefrom c) := h.congr (by simp) (by simp) (by simp) (by simp)
  unfold flushUse
  split
  · next hs => exact tracks_restart_idle hp (.inl hs.2)
  · exact hp

/-- **作成や削除の結果でない event での遷移。** -/
theorem transition_tracks : Tracks own t (transition env evt c) := by
  have hack : Tracks own t (c.update (acknowledge evt)) :=
    h.congr (acknowledge_step ..) (acknowledge_myid ..) (acknowledge_key ..) rfl
  refine tracks_flush (acts_tracks hz hack hq ?_ hlist (transition'_acts env evt c))
  rw [show (c.update (acknowledge evt)).member.step = c.member.step from acknowledge_step ..]
  exact hexit

end

theorem transition_created {nd : Znode ι} (hz : env.calls = true) (hs : c.member.step = .candreq)
    (hsent : c.sent = []) (hname : nd.name = nodeName c.member.key nd.seq) :
    Tracks [nd] ⟨[], [], [], []⟩ (transition env (.createOk nd.seq) c) := by
  refine tracks_flush ?_
  have ha : transition' env (.createOk nd.seq) c = becomeCandidate env
      ((c.update (·.setId nd.seq)).send (.watch (c.member.setId nd.seq).fullpath)) := by
    have : (c.update (acknowledge (.createOk nd.seq))).member.step = .candreq := hs
    rw [transition', dispatch, this]
    simp only [onCandreq]
    rw [if_pos (Env.zkOk_of_calls hz _)]
    rfl
  rw [ha]
  unfold becomeCandidate
  rw [if_pos (Env.zkOk_of_calls hz _)]
  refine ⟨?_, fun _ => cons_ne_nil _ _, fun nd' hnd' => ?_⟩
  · simp only [Ctx.send, Ctx.update, hsent]
    exact .joined rfl rfl rfl
  · rw [mem_singleton.mp hnd']
    exact hname

theorem transition_left (hs : c.member.step = .leaving) (hsent : c.sent = []) :
    Tracks ([] : List (Znode ι)) ⟨[], [], [], []⟩ (transition env .leaveOk c) := by
  refine tracks_flush ?_
  have ha : transition' env .leaveOk c = (c.update reset).setStatus env .none := by
    have : (c.update (acknowledge .leaveOk)).member.step = .leaving := hs
    rw [transition', dispatch, this]
    rfl
  rw [ha]
  have hz' : zkSent ((c.update reset).setStatus env .none).sent = [] := by
    show zkSent c.sent = []
    rw [hsent]
    rfl
  refine ⟨?_, ?_, by simp⟩
  · rw [hz']
    exact .idle (.inl rfl) rfl rfl
  · rw [hz']
    simp

/-! ## 依頼の実行と通知の到着 -/

section

variable {p : Proc} (hz : Zone p.ctx.member own p.traffic)
include hz

theorem zone_created {path : Bytes} (hk : p.comps[k]? = some (.created path)) :
    ∃ nd, p.ctx.member.step = .candreq ∧ own = [nd] ∧ path = nd.name ∧
      traffic { p with comps := p.comps.eraseIdx k } = ⟨[], [], [], []⟩ := by
  have hmem : path ∈ p.traffic.createds := mem_filterMap.mpr ⟨_, mem_of_getElem? hk, rfl⟩
  generalize ht : p.traffic = t at hz hmem
  cases hz with
  | @born nd hs ho =>
    injection ht with h1 h2 h3 h4
    obtain ⟨rfl, h3⟩ := filterMap_eraseIdx_some (f := created?) hk rfl h3
    refine ⟨nd, hs, ho, rfl, ?_⟩
    simp only [traffic, h1, h2, h3, h4, filterMap_eraseIdx_none (f := left?) hk rfl]
  | _ => cases hmem

theorem zone_left {zrc : Int} (hk : p.comps[k]? = some (.left zrc)) :
    (zrc = 0 ∨ zrc = zNoNode) ∧ p.ctx.member.step = .leaving ∧ own = [] ∧
      traffic { p with comps := p.comps.eraseIdx k } = ⟨[], [], [], []⟩ := by
  have hmem : zrc ∈ p.traffic.lefts := mem_filterMap.mpr ⟨_, mem_of_getElem? hk, rfl⟩
  generalize ht : p.traffic = t at hz hmem
  cases hz with
  | gone hzrc hs ho =>
    injection ht with h1 h2 h3 h4
    obtain ⟨rfl, h4'⟩ := filterMap_eraseIdx_some (f := left?) hk rfl h4
    refine ⟨hzrc, hs, ho, ?_⟩
    simp only [traffic, h1, h2, h3, h4', filterMap_eraseIdx_none (f := created?) hk rfl]
  | _ => cases hmem

theorem zone_create {path : Bytes} (hk : p.reqs[k]? = some (.create path)) :
    p.ctx.member.step = .candreq ∧ own = [] ∧
      traffic { p with reqs := p.reqs.eraseIdx k } = ⟨[], [], [], []⟩ := by
  have hmem : path ∈ p.traffic.creates := mem_filterMap.mpr ⟨_, mem_of_getElem? hk, rfl⟩
  generalize ht : p.traffic = t at hz hmem
  cases hz with
  | asking hs ho =>
    injection ht with h1 h2 h3 h4
    obtain ⟨-, h1'⟩ := filterMap_eraseIdx_some (f := ZkReq.create?) hk rfl h1
    refine ⟨hs, ho, ?_⟩
    simp only [traffic, h1', h2, h3, h4, filterMap_eraseIdx_none (f := ZkReq.leave?) hk rfl]
  | _ => cases hmem

theorem zone_leave {path : Bytes} (hk : p.reqs[k]? = some (.leave path)) :
    p.ctx.member.step = .leaving ∧ (∀ nd ∈ own, nd.name = path) ∧
      traffic { p with reqs := p.reqs.eraseIdx k } = ⟨[], [], [], []⟩ := by
  have hmem : path ∈ p.traffic.leaves := mem_filterMap.mpr ⟨_, mem_of_getElem? hk, rfl⟩
  have hrest : ∀ path', p.traffic = ⟨[], [path'], [], []⟩ → path = path' ∧
      traffic { p with reqs := p.reqs.eraseIdx k } = ⟨[], [], [], []⟩ := by
    intro path' ht
    injection ht with h1 h2 h3 h4
    obtain ⟨he, h2'⟩ := filterMap_eraseIdx_some (f := ZkReq.leave?) hk rfl h2
    refine ⟨he, ?_⟩
    simp only [traffic, h1, h2', h3, h4, filterMap_eraseIdx_none (f := ZkReq.create?) hk rfl]
  generalize ht : p.traffic = t at hz hmem
  cases hz with
  | leaving hs ho =>
    obtain ⟨rfl, h'⟩ := hrest _ ht
    exact ⟨hs, by simp [ho], h'⟩
  | leavingNone hs ho =>
    obtain ⟨-, h'⟩ := hrest _ ht
    exact ⟨hs, by simp [ho], h'⟩
  | _ => cases hmem

end

/-! ## 系の 1 step -/

section Step

variable [DecidableEq ι]

/-- process `i` の作った、今ある znode -/
def Sys.owned (s : Sys ι) (i : ι) : List (Znode ι) := s.nodes.filter (·.owner = some i)

def Outcome.failure : Outcome → Bool
  | .event .disconnected | .event .createKo | .event .leaveKo => true
  | _ => false

/-- process `i` の ZooKeeper の操作が失敗しない step -/
def Calm (i : ι) (s : Sys ι) : ZkLabel ι → Prop
  | .callback j env _ input =>
    j = i → env.calls = true ∧ (input.outcome env (s.procs i).ctx.member).failure = false
  | .deliver j _ env _ => j = i → env.calls = true
  | .vanish name => ∀ nd ∈ s.owned i, nd.name ≠ name
  | _ => True

/-- CANDREQ の process `i` が EXITING を受けない -/
def NoEarlyExit (i : ι) (s : Sys ι) : ZkLabel ι → Prop
  | .callback j env _ input =>
    j = i → input.outcome env (s.procs i).ctx.member = .event .exiting →
      (s.procs i).ctx.member.step ≠ .candreq
  | _ => True

/-- process `i` の znode の不変条件。`zero` と `fresh` は番号 0 の znode がどの一覧にもあること。 -/
structure ZnodesOk (i : ι) (s : Sys ι) : Prop where
  zone : Zone (s.procs i).ctx.member (s.owned i) (s.procs i).traffic
  zero : ∀ names, .listed names ∈ (s.procs i).comps → ∀ nd ∈ s.owned i, nd.seq = 0 → nd.name ∈ names
  fresh : s.next = 0 → .list ∉ (s.procs i).reqs ∧ ∀ names, .listed names ∉ (s.procs i).comps

variable {key : Bytes} {s s' : Sys ι} {i j : ι} {p' : Proc} {drawn k : Nat} {input : Input}

variable {nd : Znode ι} {path : Bytes} {names : List Bytes}

theorem mem_owned : nd ∈ s.owned i ↔ nd ∈ s.nodes ∧ nd.owner = some i := by
  simp [Sys.owned]

theorem owned_addNode_self (path : Bytes) :
    (s.addNode path (some i)).owned i = s.owned i ++ [⟨path ++ decPad s.next, s.next, some i⟩] := by
  simp [Sys.owned, Sys.addNode]

theorem owned_addNode_other {owner : Option ι} (h : owner ≠ some i) :
    (s.addNode path owner).owned i = s.owned i := by
  simp [Sys.owned, Sys.addNode, h]

theorem owned_removeNode (name : Bytes) :
    (s.removeNode name).owned i = (s.owned i).filter (·.name != name) := by
  simp only [Sys.owned, Sys.removeNode, filter_filter]
  exact filter_congr fun nd _ => Bool.and_comm _ _

theorem owned_removeNode_other {name : Bytes} (h : ∀ nd ∈ s.owned i, nd.name ≠ name) :
    (s.removeNode name).owned i = s.owned i := by
  rw [owned_removeNode, filter_eq_self]
  exact fun nd hnd => bne_iff_ne.mpr (h nd hnd)

theorem owned_name (h : ZkInv key s) (hnd : nd ∈ s.owned i) : nd.name = nodeName key nd.seq := by
  obtain ⟨hmem, ho⟩ := mem_owned.mp hnd
  exact h.nodes.ours nd hmem (by simp [Znode.ours, ho])

theorem leave_other (h : ZkInv key s) (hij : j ≠ i) (hr : .leave path ∈ (s.procs j).reqs) :
    ∀ nd ∈ s.owned i, nd.name ≠ path := by
  intro nd hnd he
  have hname := owned_name h hnd
  obtain ⟨hmem, ho⟩ := mem_owned.mp hnd
  rcases (h.procs j).leaves path hr with hp | ⟨seq, hp, hb⟩
  · rw [he, hp] at hname
    have hd : decPad nd.seq = [] := (append_right_eq_self.mp hname.symm)
    simp [decPad, decNat_ne_nil] at hd
  have hseq : nd.seq = seq := by
    have := h.nodes.seq nd hmem
    have := h.nodes.bound
    have := hb.1
    exact nodeName_inj (by omega) (by omega) (hname.symm.trans (he.trans hp))
  have := hb.2 nd hmem (by rw [hseq])
  rw [ho] at this
  exact hij (Option.some.inj this).symm

theorem ZnodesOk.congr (h : ZnodesOk i s) (hp : s'.procs i = s.procs i)
    (ho : s'.owned i = s.owned i) (hn : s.next ≤ s'.next) : ZnodesOk i s' := by
  refine ⟨?_, ?_, ?_⟩
  · rw [hp, ho]; exact h.zone
  · rw [hp, ho]; exact h.zero
  · rw [hp]; exact fun h0 => h.fresh (by omega)

section

variable (hinv : ZkInv key s)
include hinv

theorem znodesOk_setProc {p : Proc} {c : Ctx} (ht : Tracks (s.owned i) p.traffic c)
    (hzero : ∀ names, .listed names ∈ p.comps → ∀ nd ∈ s.owned i, nd.seq = 0 → nd.name ∈ names)
    (hfresh : s.next = 0 → .list ∉ p.reqs ∧ ∀ names, .listed names ∉ p.comps) :
    ZnodesOk i (s.setProc i { p with ctx := c, reqs := p.reqs ++ zkSent c.sent }) := by
  have hproc : (s.setProc i { p with ctx := c, reqs := p.reqs ++ zkSent c.sent }).procs i =
      { p with ctx := c, reqs := p.reqs ++ zkSent c.sent } := update_self ..
  refine ⟨?_, ?_, ?_⟩
  · rw [hproc, traffic_append]; exact ht.zone
  · rw [hproc]; exact hzero
  rw [hproc]
  intro h0
  refine ⟨fun hl => ?_, (hfresh h0).2⟩
  rcases mem_append.mp hl with hl | hl
  · exact (hfresh h0).1 hl
  -- 一覧を頼む member は znode を持つ
  obtain ⟨nd, hnd⟩ := exists_mem_of_ne_nil _ (ht.list hl)
  have := hinv.nodes.seq nd (mem_owned.mp hnd).1
  rw [show s.next = 0 from h0] at this
  exact absurd this (Nat.not_lt_zero _)

theorem tracks_start {p : Proc} (hk : p.ctx.member.key = key)
    (hz : Zone p.ctx.member (s.owned i) p.traffic) (drawn : Nat) :
    Tracks (s.owned i) p.traffic { p.ctx with nextId := p.ctx.nextId + drawn, sent := [] } := by
  refine ⟨?_, by simp [zkSent], fun nd hnd => ?_⟩
  · rw [show zkSent [] = [] from rfl, add_nil]
    exact hz
  rw [hk]
  exact owned_name hinv hnd

omit hinv in
theorem quiet_of_local {m : Member} (hin : input.fromServer = false) (hr : Raises m input evt)
    (hf : (Outcome.event evt).failure = false) : evt.quiet = true := by
  cases hr with
  | disconnected => cases hf
  | createKo => cases hf
  | leaveKo => cases hf
  | createOk _ => cases hin
  | leaveOk hz => rcases hz with rfl | rfl <;> cases hin
  | @endGetvers r reply loc => cases getversVerdict reply loc <;> rfl
  | _ => rfl

omit hinv in
theorem listOk_fromServer {m : Member} (hr : Raises m input evt) :
    ∀ ids, evt = .listOk ids → input.fromServer = true := by
  cases hr with
  | listOk => exact fun _ _ => rfl
  | @endGetvers r reply loc => cases getversVerdict reply loc <;> exact fun _ he => by cases he
  | _ => exact fun _ he => by cases he

theorem znodesOk_callback (h : ZnodesOk i s) (hin : input.fromServer = false)
    (hc : Calm i s (.callback i env drawn input))
    (he : NoEarlyExit i s (.callback i env drawn input))
    (hrun : (s.procs i).run env drawn input = some p') : ZnodesOk i (s.setProc i p') := by
  obtain ⟨hz, hf⟩ := hc rfl
  have ht := tracks_start hinv (hinv.procs i).base h.zone drawn
  obtain ⟨c, hc, rfl⟩ := Option.map_eq_some_iff.mp hrun
  refine znodesOk_setProc hinv ?_ h.zero h.fresh
  unfold handle at hc
  split at hc
  · cases hc
  · cases hc; exact ht
  rename_i evt ho
  cases hc
  have hr := outcome_raises ho
  rw [show input.outcome env (s.procs i).ctx.member = .event evt from ho] at hf
  refine transition_tracks hz ht (quiet_of_local hin hr hf) ?_ ?_
  · rintro rfl
    exact he rfl ho
  intro ids nd hl
  rw [listOk_fromServer hr ids hl] at hin
  cases hin

theorem outcome_created (hnd : nd ∈ s.owned i) (m : Member) :
    (created nd.name).input.outcome env m = .event (.createOk nd.seq) := by
  have := hinv.nodes.seq nd (mem_owned.mp hnd).1
  have := hinv.nodes.bound
  simp only [input, Input.outcome, owned_name hinv hnd, afterLast_nodeName,
    strtoll_decPad (n := nd.seq) (by omega)]
  rfl

theorem zero_mem_listed (hnd : nd ∈ s.owned i) (h0 : nd.seq = 0) (hmem : nd.name ∈ names) :
    0 ∈ nodevToInt64v names key := by
  refine mem_nodevToInt64v.mpr ⟨nd.name, hmem, ?_, decPad 0, ?_, ?_⟩
  · rw [owned_name hinv hnd]
    exact hasPrefix_nodeName key _
  · rw [owned_name hinv hnd, h0]
    exact afterLast_nodeName key _
  · exact strtoll_decPad (n := 0) (by decide)

theorem znodesOk_deliver {comp : Completion} (h : ZnodesOk i s) (hz : env.calls = true)
    (hk : (s.procs i).comps[k]? = some comp)
    (hrun : run { s.procs i with comps := (s.procs i).comps.eraseIdx k } env drawn comp.input =
      some p') :
    ZnodesOk i (s.setProc i p') := by
  have hbase := (hinv.procs i).base
  have hin : comp ∈ (s.procs i).comps := mem_of_getElem? hk
  obtain ⟨c, hc, rfl⟩ := Option.map_eq_some_iff.mp hrun
  refine znodesOk_setProc (p := { s.procs i with comps := (s.procs i).comps.eraseIdx k }) hinv ?_
    (fun names hn => h.zero names (mem_of_mem_eraseIdx hn))
    (fun h0 => ⟨(h.fresh h0).1, fun names hn => (h.fresh h0).2 names (mem_of_mem_eraseIdx hn)⟩)
  cases comp with
  | created path =>
    obtain ⟨nd, hs, ho, rfl, ht⟩ := zone_created h.zone hk
    have hnd : nd ∈ s.owned i := by rw [ho]; exact mem_singleton_self _
    rw [handle, outcome_created hinv hnd] at hc
    cases hc
    rw [ht, ho]
    exact transition_created hz hs rfl (by rw [owned_name hinv hnd, ← hbase])
  | listed names =>
    have ht : traffic { s.procs i with comps := (s.procs i).comps.eraseIdx k } =
        (s.procs i).traffic := by
      simp only [traffic, filterMap_eraseIdx_none (f := created?) hk rfl,
        filterMap_eraseIdx_none (f := left?) hk rfl]
    rw [ht]
    cases hc
    refine transition_tracks hz (tracks_start hinv hbase h.zone drawn) rfl (by simp) ?_
    rintro ids nd he ho h0
    cases he
    have hnd : nd ∈ s.owned i := by rw [ho]; exact mem_singleton_self _
    rw [show Member.key _ = key from hbase]
    exact zero_mem_listed hinv hnd h0 (h.zero names hin nd hnd h0)
  | left zrc =>
    obtain ⟨hzrc, hs, ho, ht⟩ := zone_left h.zone hk
    have hev : ∀ m, (left zrc).input.outcome env m = .event .leaveOk := by
      intro m
      simp only [input, Input.outcome]
      rw [if_pos hzrc]
    rw [handle, hev] at hc
    cases hc
    rw [ht, ho]
    exact transition_left hs rfl

end

theorem znodesOk_complete {comp : Completion} (hz : Zone (s.procs i).ctx.member (s.owned i)
      (traffic { s.procs i with
        reqs := (s.procs i).reqs.eraseIdx k, comps := (s.procs i).comps ++ [comp] }))
    (hzero : ∀ names, .listed names ∈ (s.procs i).comps ∨ comp = .listed names →
      ∀ nd ∈ s.owned i, nd.seq = 0 → nd.name ∈ names)
    (hfresh : s.next = 0 → .list ∉ (s.procs i).reqs ∧
      ∀ names, .listed names ∉ (s.procs i).comps ∧ comp ≠ .listed names) :
    ZnodesOk i (s.complete i k comp) := by
  have hproc : (s.complete i k comp).procs i = { s.procs i with
        reqs := (s.procs i).reqs.eraseIdx k, comps := (s.procs i).comps ++ [comp] } :=
    update_self ..
  refine ⟨?_, ?_, ?_⟩
  · rw [hproc]; exact hz
  · rw [hproc]
    intro names hn
    refine hzero names ((mem_append.mp hn).imp_right fun hn => ?_)
    exact (mem_singleton.mp hn).symm
  rw [hproc]
  intro h0
  refine ⟨fun hl => (hfresh h0).1 (mem_of_mem_eraseIdx hl), fun names hn => ?_⟩
  rcases mem_append.mp hn with hn | hn
  · exact ((hfresh h0).2 names).1 hn
  · exact ((hfresh h0).2 names).2 (mem_singleton.mp hn).symm

theorem znodesOk_created (h : ZnodesOk i s) (hreq : (s.procs i).reqs[k]? = some (.create path)) :
    ZnodesOk i ((s.addNode path (some i)).complete i k (.created (path ++ decPad s.next))) := by
  obtain ⟨hstep, ho, ht⟩ := zone_create h.zone hreq
  have hown : (s.addNode path (some i)).owned i = [⟨path ++ decPad s.next, s.next, some i⟩] := by
    rw [owned_addNode_self, ho, nil_append]
  refine znodesOk_complete (s := s.addNode path (some i)) ?_ ?_ ?_
  · rw [hown]
    injection ht with h1 h2 h3 h4
    have : traffic { s.procs i with
        reqs := (s.procs i).reqs.eraseIdx k
        comps := (s.procs i).comps ++ [.created (path ++ decPad s.next)] } =
        ⟨[], [], [path ++ decPad s.next], []⟩ := by
      simp only [traffic, filterMap_append, h1, h2, h3, h4]
      rfl
    exact this ▸ .born hstep rfl
  · intro names hn nd hnd h0
    rw [hown] at hnd
    have hnext : s.next = 0 := by rw [mem_singleton.mp hnd] at h0; exact h0
    rcases hn with hn | hn
    · exact absurd hn ((h.fresh hnext).2 names)
    · cases hn
  · intro h0
    exact absurd h0 (Nat.succ_ne_zero _)

theorem znodesOk_listed (h : ZnodesOk i s) (hreq : (s.procs i).reqs[k]? = some .list)
    (hall : ∀ nd ∈ s.nodes, nd.name ∈ names) : ZnodesOk i (s.complete i k (.listed names)) := by
  refine znodesOk_complete ?_ ?_ ?_
  · have ht : traffic { s.procs i with
        reqs := (s.procs i).reqs.eraseIdx k, comps := (s.procs i).comps ++ [.listed names] } =
        (s.procs i).traffic := by
      simp only [traffic, filterMap_append, filterMap_eraseIdx_none (f := ZkReq.create?) hreq rfl,
        filterMap_eraseIdx_none (f := ZkReq.leave?) hreq rfl]
      simp [created?, left?]
    rw [ht]
    exact h.zone
  · rintro names' (hn | hn) nd hnd h0
    · exact h.zero names' hn nd hnd h0
    · cases hn
      exact hall nd (mem_owned.mp hnd).1
  · intro h0
    exact absurd (mem_of_getElem? hreq) (h.fresh h0).1

theorem znodesOk_left {zrc : Int} (h : ZnodesOk i s)
    (hreq : (s.procs i).reqs[k]? = some (.leave path)) (hzrc : zrc = 0 ∨ zrc = zNoNode) :
    ZnodesOk i ((s.removeNode path).complete i k (.left zrc)) := by
  obtain ⟨hstep, ho, ht⟩ := zone_leave h.zone hreq
  have hown : (s.removeNode path).owned i = [] := by
    rw [owned_removeNode, filter_eq_nil_iff]
    intro nd hnd
    simp [ho nd hnd]
  refine znodesOk_complete (s := s.removeNode path) ?_ ?_ ?_
  · rw [hown]
    injection ht with h1 h2 h3 h4
    have : traffic { s.procs i with
        reqs := (s.procs i).reqs.eraseIdx k, comps := (s.procs i).comps ++ [.left zrc] } =
        ⟨[], [], [], [zrc]⟩ := by
      simp only [traffic, filterMap_append, h1, h2, h3, h4]
      rfl
    exact this ▸ .gone hzrc hstep rfl
  · rw [hown]
    simp
  · intro h0
    exact ⟨(h.fresh h0).1, fun names => ⟨(h.fresh h0).2 names, by simp⟩⟩

theorem znodesOk_serve_self (h : ZnodesOk i s) (hs : s.serve i k names = some s') :
    ZnodesOk i s' := by
  unfold Sys.serve at hs
  split at hs
  · cases hs
  · next path hreq =>
    split at hs
    · cases hs
      exact znodesOk_created h hreq
    · cases hs
  · next hreq =>
    split at hs
    · next hperm =>
      cases hs
      refine znodesOk_listed h hreq fun nd hnd => ?_
      exact hperm.mem_iff.mpr (mem_map.mpr ⟨nd, hnd, rfl⟩)
    · cases hs
  · next path hreq =>
    cases hs
    refine znodesOk_left h hreq ?_
    split
    · exact .inl rfl
    · exact .inr rfl

theorem znodesOk_serve_other (hinv : ZkInv key s) (h : ZnodesOk i s) (hij : j ≠ i)
    (hs : s.serve j k names = some s') : ZnodesOk i s' := by
  have hproc : ∀ (s : Sys ι) comp, (s.complete j k comp).procs i = s.procs i :=
    fun s comp => update_of_ne hij.symm ..
  unfold Sys.serve at hs
  split at hs
  · cases hs
  · split at hs
    · cases hs
      refine h.congr (hproc _ _) ?_ (Nat.le_succ _)
      exact owned_addNode_other (by simpa using hij)
    · cases hs
  · split at hs
    · cases hs
      exact h.congr (hproc _ _) rfl (Nat.le_refl _)
    · cases hs
  · next path hreq =>
    cases hs
    refine h.congr (hproc _ _) ?_ (Nat.le_refl _)
    exact owned_removeNode_other (leave_other hinv hij (mem_of_getElem? hreq))

/-- **操作が失敗せず、早すぎる EXITING も無い step は不変条件を保つ。** -/
theorem zkStep_znodes {l : ZkLabel ι} (hinv : ZkInv key s) (h : ZnodesOk i s) (hc : Calm i s l)
    (he : NoEarlyExit i s l) (hs : zkStep key s l = some s') : ZnodesOk i s' := by
  have hproc : ∀ {j p}, j ≠ i → (s.setProc j p).procs i = s.procs i :=
    fun hij => update_of_ne hij.symm ..
  cases l with
  | callback j env drawn input =>
    simp only [zkStep] at hs
    split at hs
    · cases hs
    rename_i hin
    obtain ⟨p', hrun, rfl⟩ := Option.map_eq_some_iff.mp hs
    by_cases hij : j = i
    · subst hij
      exact znodesOk_callback hinv h (Bool.eq_false_iff.mpr hin) hc he hrun
    · exact h.congr (hproc hij) rfl (Nat.le_refl _)
  | serve j k names =>
    by_cases hij : j = i
    · subst hij
      exact znodesOk_serve_self h hs
    · exact znodesOk_serve_other hinv h hij hs
  | deliver j k env drawn =>
    simp only [zkStep] at hs
    split at hs
    · cases hs
    rename_i comp hk
    obtain ⟨p', hrun, rfl⟩ := Option.map_eq_some_iff.mp hs
    by_cases hij : j = i
    · subst hij
      exact znodesOk_deliver hinv h (hc rfl) hk hrun
    · exact h.congr (hproc hij) rfl (Nat.le_refl _)
  | vanish name =>
    cases hs
    exact h.congr rfl (owned_removeNode_other hc) (Nat.le_refl _)
  | foreign other =>
    simp only [zkStep] at hs
    split at hs
    · cases hs
      exact h.congr rfl (owned_addNode_other (by simp)) (Nat.le_succ _)
    · cases hs

theorem znodesOk_initial (key : Bytes) (now : ι → Nat) (i : ι) :
    ZnodesOk i (initialSys key now) := by
  refine ⟨.idle (.inl rfl) rfl rfl, ?_, ?_⟩
  · simp [initialSys]
  · simp [initialSys]

/-- **操作が失敗せず、CANDREQ で EXITING を受けない run では、process の znode は高々一つで、NONE で待つものの無い member は
一つも持たない。** -/
theorem owns_at_most_one {now : ι → Nat}
    (h : Reach (zkStep key) (fun s l => Calm i s l ∧ NoEarlyExit i s l) (initialSys key now) s) :
    (s.owned i).length ≤ 1 ∧
      ((s.procs i).ctx.member.step = .none → (s.procs i).reqs = [] → (s.procs i).comps = [] →
        s.owned i = []) := by
  have hinv : ZkInv key s ∧ ZnodesOk i s := by
    refine h.invariant (I := fun s => ZkInv key s ∧ ZnodesOk i s)
      ⟨zkInv_initial key now, znodesOk_initial key now i⟩ ?_
    rintro a b l ⟨hI, hz⟩ ⟨hc, he⟩ hst
    exact ⟨zkStep_inv hI hst, zkStep_znodes hI hz hc he hst⟩
  have hz := hinv.2.zone
  refine ⟨?_, fun hs _ _ => (hz.of_idle (.inl hs)).1⟩
  generalize (s.procs i).traffic = t at hz
  cases hz with
  | idle _ _ ho => simp [ho]
  | asking _ ho => simp [ho]
  | born _ ho => simp [ho]
  | joined _ _ ho => simp [ho]
  | leaving _ ho => simp [ho]
  | leavingNone _ ho => simp [ho]
  | gone _ _ ho => simp [ho]

instance (i : ι) (s : Sys ι) : ∀ l, Decidable (Calm i s l)
  | .callback j env _ input =>
    inferInstanceAs (Decidable (j = i → env.calls = true ∧
      (input.outcome env (s.procs i).ctx.member).failure = false))
  | .deliver j _ env _ => inferInstanceAs (Decidable (j = i → env.calls = true))
  | .vanish name => inferInstanceAs (Decidable (∀ nd ∈ s.owned i, nd.name ≠ name))
  | .serve .. => .isTrue trivial
  | .foreign _ => .isTrue trivial

instance (i : ι) (s : Sys ι) : ∀ l, Decidable (NoEarlyExit i s l)
  | .callback j env _ input =>
    inferInstanceAs (Decidable (j = i → input.outcome env (s.procs i).ctx.member = .event .exiting →
        (s.procs i).ctx.member.step ≠ .candreq))
  | .deliver .. => .isTrue trivial
  | .vanish _ => .isTrue trivial
  | .serve .. => .isTrue trivial
  | .foreign _ => .isTrue trivial

end Step

/-! ## 具体的な run -/

/-- 一つの process が加わり、選挙を離れて NONE に戻る run -/
def leaveRun : List (ZkLabel Unit) :=
  let env : Env := ⟨0, false, some [], fun _ => true⟩
  [.callback () env 0 .kickoff, .serve () 0 [], .deliver () 0 env 0,
    .callback () env 0 .exit, .serve () 1 [], .deliver () 0 env 0, .serve () 0 [],
    .deliver () 0 env 0]

theorem owns_at_most_one_leaveRun : ∃ s : Sys Unit,
    Reach (zkStep (ascii "B")) (fun s l => Calm () s l ∧ NoEarlyExit () s l)
      (initialSys (ascii "B") fun _ => 0) s ∧
      (s.procs ()).ctx.member.step = .none ∧ s.next = 1 ∧ s.owned () = [] := by
  obtain ⟨s, hs, hnext, hstep, hreqs, hcomps⟩ :
      ∃ s ∈ exec (zkStep (ascii "B")) (initialSys (ascii "B") fun _ => 0) leaveRun, s.next = 1 ∧
        (s.procs ()).ctx.member.step = .none ∧ (s.procs ()).reqs = [] ∧
        (s.procs ()).comps = [] := by
    decide +kernel
  have hreach : Reach (zkStep (ascii "B")) (fun s l => Calm () s l ∧ NoEarlyExit () s l)
      (initialSys (ascii "B") fun _ => 0) s := reach_of_exec _ (by decide +kernel) hs
  exact ⟨s, hreach, hstep, hnext, (owns_at_most_one hreach).2 hstep hreqs hcomps⟩

/-- CANDREQ で EXITING を受け、作成、削除、通知が順に起こる run -/
def orphanRun : List (ZkLabel Unit) :=
  let env : Env := ⟨0, false, some [], fun _ => true⟩
  [.callback () env 0 .kickoff, .callback () env 0 .exit, .serve () 0 [], .serve () 0 [],
    .deliver () 0 env 0, .deliver () 0 env 0]

def rejoinRun : List (ZkLabel Unit) :=
  let env : Env := ⟨0, false, some [], fun _ => true⟩
  [.callback () env 0 .kickoff, .serve () 0 []]

/-- **どの操作も失敗しないのに、NONE で待つものの無い member の znode が残り、加わり直すと二つになる。** -/
theorem orphan_znode : ∃ s s' : Sys Unit,
    Reach (zkStep (ascii "B")) (Calm ()) (initialSys (ascii "B") fun _ => 0) s ∧
      (s.procs ()).ctx.member.step = .none ∧ (s.procs ()).reqs = [] ∧ (s.procs ()).comps = [] ∧
      s.owned () = [⟨ascii "B-0000000000", 0, some ()⟩] ∧
      Reach (zkStep (ascii "B")) (Calm ()) (initialSys (ascii "B") fun _ => 0) s' ∧
      s'.owned () = [⟨ascii "B-0000000000", 0, some ()⟩, ⟨ascii "B-0000000001", 1, some ()⟩] := by
  obtain ⟨s, hs, hstep, hreqs, hcomps, howned⟩ :
      ∃ s ∈ exec (zkStep (ascii "B")) (initialSys (ascii "B") fun _ => 0) orphanRun,
        (s.procs ()).ctx.member.step = .none ∧ (s.procs ()).reqs = [] ∧ (s.procs ()).comps = [] ∧
        s.owned () = [⟨ascii "B-0000000000", 0, some ()⟩] := by
    decide +kernel
  obtain ⟨s', hs', howned'⟩ : ∃ s ∈ exec (zkStep (ascii "B")) (initialSys (ascii "B") fun _ => 0)
      (orphanRun ++ rejoinRun),
      s.owned () = [⟨ascii "B-0000000000", 0, some ()⟩, ⟨ascii "B-0000000001", 1, some ()⟩] := by
    decide +kernel
  exact ⟨s, s', reach_of_exec _ (by decide +kernel) hs, hstep, hreqs, hcomps, howned,
    reach_of_exec _ (by decide +kernel) hs', howned'⟩

end Redcurrant.Sqliterepo.Election
