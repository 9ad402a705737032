import Redcurrant.Sqliterepo.Election.Transition

/-!
# member の動きの一覧

一つの event での member の動き（`Acts`、`transition'_acts`）と、callback の起こす event（`Raises`）の一覧。
-/

namespace Redcurrant.Sqliterepo.Election

open Infra

/-- event を無視してよい状態。他の組では必ず何かをする。 -/
def Ignorable (m : Member) : Event → Prop
  | .disconnected => False
  | .createOk _ => m.step ≠ .candreq
  | .listOk _ => m.step ≠ .candok
  | .leaveOk => m.step ≠ .leaving
  | .getversOk r | .getversOutdated r | .getversConcurrent r | .getversError r =>
    m.step = .prelost ∨ m.step = .prelead → r ≠ m.reqidGetvers
  | _ => True

/-- 選挙に加わっている（znode を持つはずの）状態 -/
def Step.joined : Step → Bool
  | .candok | .prelost | .prelead | .lost | .leader => true
  | _ => false

/-- 自分を master とする状態 -/
def Step.leads : Step → Bool
  | .prelead | .leader => true
  | _ => false

/-- 一つの event での動き。`c` は `acknowledge` の後の状態。 -/
inductive Acts (env : Env) (c : Ctx) : Event → Ctx → Prop
  | ignored {evt : Event} : Ignorable c.member evt → Acts env c evt c
  | disconnect : Acts env c .disconnected ((c.update Member.reset).setStatus env .failed)
  | restart {evt : Event} : c.member.step = .none ∨ c.member.step = .failed →
      Acts env c evt (restartElection env c)
  | restartResync : c.member.step = .failed →
      Acts env c .resyncReq (restartElection env (c.update Member.resyncIfNotPending))
  | exitEarly : c.member.step = .candreq → Acts env c .exiting (becomeLeaver env c)
  | leave {evt : Event} : c.member.step.joined → Acts env c evt (becomeLeaver env c)
  | leaveAgain : c.member.step = .leaving → Acts env c .leaveKo (becomeLeaver env c)
  | created {id : Int} : c.member.step = .candreq → env.zkOk .watch = true →
      Acts env c (.createOk id) (becomeCandidate env
        ((c.update (·.setId id)).send (.watch (c.member.setId id).fullpath)))
  | unwatched {id : Int} : c.member.step = .candreq → env.zkOk .watch = false →
      Acts env c (.createOk id) ((c.update (·.setId id)).setStatus env .failed)
  | notCreated : c.member.step = .candreq → Acts env c .createKo (c.setStatus env .failed)
  | ping : c.member.step.joined ∨ c.member.step = .failed → Acts env c .none (memberPing env c)
  | resync : c.member.step ≠ .prelead → Acts env c .resyncReq (c.update Member.resyncIfNotPending)
  | list {ids : List Int} : c.member.step = .candok →
      Acts env c (.listOk ids) (manageList env ids c)
  | candidate {evt : Event} : c.member.step.joined → Acts env c evt (becomeCandidate env c)
  | retry : c.member.step = .prelost ∨ c.member.step = .prelead →
      Acts env c .none ((deferGetvers env c).update fun m => { m with lastStatus := env.now })
  | masterOk {url : Bytes} : c.member.step = .prelost →
      Acts env c (.masterOk url) (finishPrelost env (c.update (·.setMasterUrl (some url))))
  | replyLost {v : Verdict} : c.member.step = .prelost → v ≠ .outdated →
      Acts env c (v.event c.member.reqidGetvers) (finishPrelost env (c.update v.count))
  | outdatedLost : c.member.step = .prelost → Acts env c (.getversOutdated c.member.reqidGetvers)
        (c.update fun m => m.countGetvers.resyncIfNotPending)
  | replyLead {v : Verdict} : c.member.step = .prelead → v ≠ .outdated →
      Acts env c (v.event c.member.reqidGetvers) (finishPrelead env (c.update v.count))
  | outdatedLead : c.member.step = .prelead → Acts env c (.getversOutdated c.member.reqidGetvers)
        (becomeLeaver env (c.update Member.countGetvers))
  | resynced {reqid : Nat} : c.member.step = .prelost → c.member.hasAction = false →
      c.member.masterUrl.isSome → Acts env c (.resyncDone reqid) (c.setStatus env .lost)
  | askUse : c.member.step = .leaving →
      Acts env c .none (c.update fun m => { m with requestedUse := true })
  | left : c.member.step = .leaving →
      Acts env c .leaveOk ((c.update Member.reset).setStatus env .none)
  | lostResync : c.member.step = .lost → Acts env c .resyncReq
        ((c.update fun m => { m with requestedPipefrom := true }).setStatus env .prelost)
  | forget {evt : Event} : c.member.step = .failed →
      Acts env c evt ((c.update Member.reset).setStatus env .failed)

variable {env : Env} {evt : Event} {c : Ctx}

@[simp] theorem count_step (v : Verdict) (m : Member) : (v.count m).step = m.step := by
  cases v <;> · simp only [Verdict.count, Member.countGetvers]; split <;> rfl

theorem becomeLeaver_step (env : Env) (c : Ctx) :
    (becomeLeaver env c).member.step = .leaving ∨ (becomeLeaver env c).member.step = .failed := by
  unfold becomeLeaver
  split
  · exact .inl rfl
  · exact .inr rfl

/-! ## 操作の結果

途中で失敗しうる操作の結果を一度だけ数え上げる。
-/

/-- 初期化して CANDREQ に移り、USE を頼んだ後 -/
def candreqCtx (env : Env) (c : Ctx) : Ctx :=
  (deferUse env ((c.update Member.reset).update
    fun m => { m with requestedUse := false }.setStatus env .candreq)).2

/-- 先頭の member を master とし、PRELOST に移った後 -/
def prelostCtx (env : Env) (ids : List Int) (c : Ctx) : Ctx :=
  (c.setStatus env .candok).update fun m => (m.setMasterId (ids.headD (-1))).setStatus env .prelost

/-- GETVERS の失敗の数を消した後 -/
def Ctx.clearErrors (c : Ctx) : Ctx :=
  c.update fun m => { m with errorsGetvers := 0, concurrentGetvers := 0 }

section Results

variable (env : Env) (c : Ctx)

@[simp] theorem candreqCtx_step : (candreqCtx env c).member.step = .candreq := deferUse_step ..

@[simp] theorem candreqCtx_myid : (candreqCtx env c).member.myid = -1 := deferUse_myid ..

@[simp] theorem candreqCtx_masterUrl : (candreqCtx env c).member.masterUrl = none :=
  deferUse_masterUrl ..

theorem restartElection_cases : (0 < c.member.myid ∧ restartElection env c = becomeLeaver env c) ∨
    restartElection env c = (c.update Member.reset).setStatus env .none ∨
    restartElection env c = (candreqCtx env c).setStatus env .failed ∨
    restartElection env c = (candreqCtx env c).send (.create (c.member.key ++ ascii "-")) := by
  unfold restartElection
  split
  · next h => exact .inl ⟨h, rfl⟩
  dsimp only
  split
  · exact .inr (.inl rfl)
  split
  · next c2 he => exact .inr (.inr (.inl (by rw [candreqCtx, he])))
  rename_i c2 he
  have hc2 : c2 = candreqCtx env c := by rw [candreqCtx, he]
  have hk : c2.member.key = c.member.key := by rw [hc2]; exact deferUse_key ..
  rw [hc2] at hk ⊢
  split
  · rw [Member.fullpath, candreqCtx_myid, hk]
    exact .inr (.inr (.inr rfl))
  · exact .inr (.inr (.inl rfl))

theorem memberPing_cases : memberPing env c = c ∨ memberPing env c = (deferUse env c).2 ∨
    memberPing env c = becomeLeaver env (deferUse env c).2 := by
  unfold memberPing
  split
  · split
    · next he => exact .inr (.inr (by rw [he]))
    · next he => exact .inr (.inl (by rw [he]))
  · exact .inl rfl

theorem finishPrelost_cases :
    finishPrelost env c = c ∨ finishPrelost env c = becomeLeaver env c.clearErrors ∨
      finishPrelost env c = c.clearErrors.update Member.resyncIfNotPending ∨
      finishPrelost env c = c.clearErrors ∨
      (c.member.hasAction = false ∧ c.member.masterUrl.isSome ∧
        finishPrelost env c = c.clearErrors.setStatus env .lost) := by
  unfold finishPrelost
  split
  · exact .inl rfl
  rename_i ha
  dsimp only
  split
  · exact .inr (.inl rfl)
  split
  · exact .inr (.inr (.inl rfl))
  split
  · next hu => exact .inr (.inr (.inr (.inr ⟨Bool.eq_false_iff.mpr ha, hu, rfl⟩)))
  · exact .inr (.inr (.inr (.inl rfl)))

theorem finishPrelead_cases :
    finishPrelead env c = c ∨ finishPrelead env c = becomeLeaver env c.clearErrors ∨
      finishPrelead env c = c.clearErrors.setStatus env .leader := by
  unfold finishPrelead
  split
  · exact .inl rfl
  dsimp only
  split
  · exact .inr (.inl rfl)
  split
  · exact .inr (.inl rfl)
  · exact .inr (.inr rfl)

theorem manageList_cases (ids : List Int) : (c.member.inGroup ids = false ∧
      manageList env ids c = restartElection env (c.setStatus env .candok)) ∨
    (c.member.inGroup ids = true ∧ c.member.groupMaster ids = true ∧
      manageList env ids c = deferGetvers env ((c.setStatus env .candok).update
        fun m => (m.setMasterId m.myid).setStatus env .prelead)) ∨
    (c.member.inGroup ids = true ∧ c.member.groupMaster ids = false ∧
      (manageList env ids c = becomeLeaver env (prelostCtx env ids c) ∨
        ∃ path, manageList env ids c =
          deferGetvers env ((prelostCtx env ids c).send (.ask path)))) := by
  unfold manageList
  dsimp only
  split
  · next hin => exact .inl ⟨by simpa using show (!c.member.inGroup ids) = true from hin, rfl⟩
  rename_i hin
  have hin : c.member.inGroup ids = true := by
    simpa using show ¬(!c.member.inGroup ids) = true from hin
  split
  · next hgm => exact .inr (.inl ⟨hin, hgm, rfl⟩)
  rename_i hgm
  refine .inr (.inr ⟨hin, Bool.eq_false_iff.mpr hgm, ?_⟩)
  split
  · exact .inl rfl
  rename_i path _
  split
  · exact .inr ⟨path, rfl⟩
  · exact .inl rfl

end Results

/-! ## `step` ごとの場合分け -/

theorem onNone_acts (h : c.member.step = .none) (hd : evt ≠ .disconnected) :
    Acts env c evt (onNone env evt c) := by
  unfold onNone
  split
  · exact .restart (.inl h)
  · exact .restart (.inl h)
  · refine .ignored ?_
    cases evt <;> simp_all [Ignorable]

theorem onCandreq_acts (h : c.member.step = .candreq) (hd : evt ≠ .disconnected) :
    Acts env c evt (onCandreq env evt c) := by
  unfold onCandreq
  split
  · exact .resync (by simp [h])
  · exact .exitEarly h
  · cases hw : env.zkOk .watch with
    | true => exact .created h hw
    | false => exact .unwatched h hw
  · exact .notCreated h
  · refine .ignored ?_
    cases evt <;> simp_all [Ignorable]

theorem onCandok_acts (h : c.member.step = .candok) (hd : evt ≠ .disconnected) :
    Acts env c evt (onCandok env evt c) := by
  have hj : c.member.step.joined := by simp [h, Step.joined]
  unfold onCandok
  split
  · exact .ping (.inl hj)
  · exact .resync (by simp [h])
  · exact .leave hj
  · exact .list h
  · exact .candidate hj
  · exact .candidate hj
  · refine .ignored ?_
    cases evt <;> simp_all [Ignorable]

theorem retryGetvers_acts (h : c.member.step = .prelost ∨ c.member.step = .prelead) :
    Acts env c .none (retryGetvers env c) := by
  unfold retryGetvers
  split
  · exact .retry h
  · refine .ping (.inl ?_)
    rcases h with h | h <;> simp [h, Step.joined]

theorem ignorable_stale {r : Nat} (hr : r ≠ c.member.reqidGetvers) :
    Ignorable c.member (.getversOk r) ∧ Ignorable c.member (.getversOutdated r) ∧
      Ignorable c.member (.getversConcurrent r) ∧ Ignorable c.member (.getversError r) :=
  ⟨fun _ => hr, fun _ => hr, fun _ => hr, fun _ => hr⟩

theorem onPrelost_acts (h : c.member.step = .prelost) (hd : evt ≠ .disconnected) :
    Acts env c evt (onPrelost env evt c) := by
  have hj : c.member.step.joined := by simp [h, Step.joined]
  -- 返事は今の回のものだけを数える
  cases evt with
  | none => exact retryGetvers_acts (.inl h)
  | resyncReq => exact .resync (by simp [h])
  | disconnected => exact absurd rfl hd
  | useRes r => exact .ignored trivial
  | exiting => exact .leave hj
  | masterOk url => exact .masterOk h
  | getversOk r =>
    simp only [onPrelost]
    split
    · next hr => subst hr; exact .replyLost (v := .ok) h (by simp)
    · next hr => exact .ignored (ignorable_stale hr).1
  | getversOutdated r =>
    simp only [onPrelost]
    split
    · next hr => subst hr; exact .outdatedLost h
    · next hr => exact .ignored (ignorable_stale hr).2.1
  | getversConcurrent r =>
    simp only [onPrelost]
    split
    · next hr => subst hr; exact .replyLost (v := .concurrent) h (by simp)
    · next hr => exact .ignored (ignorable_stale hr).2.2.1
  | getversError r =>
    simp only [onPrelost]
    split
    · next hr => subst hr; exact .replyLost (v := .error) h (by simp)
    · next hr => exact .ignored (ignorable_stale hr).2.2.2
  | resyncDone r =>
    simp only [onPrelost]
    split
    · next hc =>
      simp only [Bool.and_eq_true, Bool.not_eq_true'] at hc
      exact .resynced h hc.1 hc.2
    · exact .ignored trivial
  | _ => exact .candidate hj

theorem onPrelead_acts (h : c.member.step = .prelead) (hd : evt ≠ .disconnected) :
    Acts env c evt (onPrelead env evt c) := by
  have hj : c.member.step.joined := by simp [h, Step.joined]
  cases evt with
  | none => exact retryGetvers_acts (.inr h)
  | resyncReq | exiting => exact .leave hj
  | disconnected => exact absurd rfl hd
  | useRes r => exact .ignored trivial
  | getversOk r =>
    simp only [onPrelead]
    split
    · next hr => subst hr; exact .replyLead (v := .ok) h (by simp)
    · next hr => exact .ignored (ignorable_stale hr).1
  | getversOutdated r =>
    simp only [onPrelead]
    split
    · next hr => subst hr; exact .outdatedLead h
    · next hr => exact .ignored (ignorable_stale hr).2.1
  | getversConcurrent r =>
    simp only [onPrelead]
    split
    · next hr => subst hr; exact .replyLead (v := .concurrent) h (by simp)
    · next hr => exact .ignored (ignorable_stale hr).2.2.1
  | getversError r =>
    simp only [onPrelead]
    split
    · next hr => subst hr; exact .replyLead (v := .error) h (by simp)
    · next hr => exact .ignored (ignorable_stale hr).2.2.2
  | _ => exact .candidate hj

theorem onLeaving_acts (h : c.member.step = .leaving) (hd : evt ≠ .disconnected) :
    Acts env c evt (onLeaving env evt c) := by
  unfold onLeaving
  split
  · split
    · exact .ignored trivial
    · exact .askUse h
  · exact .resync (by simp [h])
  · exact .left h
  · exact .leaveAgain h
  · refine .ignored ?_
    cases evt <;> simp_all [Ignorable]

theorem onLost_acts (h : c.member.step = .lost) (hd : evt ≠ .disconnected) :
    Acts env c evt (onLost env evt c) := by
  have hj : c.member.step.joined := by simp [h, Step.joined]
  unfold onLost
  split
  · exact .ping (.inl hj)
  · exact .leave hj
  · exact .leave hj
  · exact .candidate hj
  · exact .candidate hj
  · exact .candidate hj
  · exact .lostResync h
  · refine .ignored ?_
    cases evt <;> simp_all [Ignorable]

theorem onLeader_acts (h : c.member.step = .leader) (hd : evt ≠ .disconnected) :
    Acts env c evt (onLeader env evt c) := by
  have hj : c.member.step.joined := by simp [h, Step.joined]
  unfold onLeader
  split
  · exact .ping (.inl hj)
  · exact .leave hj
  · exact .leave hj
  · exact .leave hj
  · refine .ignored ?_
    cases evt <;> simp_all [Ignorable]

theorem onFailed_acts (h : c.member.step = .failed) (hd : evt ≠ .disconnected) :
    Acts env c evt (onFailed env evt c) := by
  unfold onFailed
  split
  · split
    · exact .restart (.inr h)
    · exact .ping (.inr h)
  · exact .restartResync h
  · exact .forget h
  · exact .forget h
  · refine .ignored ?_
    cases evt <;> simp_all [Ignorable]

/-- **`_transition` の動きは `Acts` のどれかである。** -/
theorem transition'_acts (env : Env) (evt : Event) (c : Ctx) :
    Acts env (c.update (acknowledge evt)) evt (transition' env evt c) := by
  unfold transition'
  split
  · next hd => subst hd; exact .disconnect
  rename_i hd
  unfold dispatch
  split
  · next h => exact onNone_acts h hd
  · next h => exact onCandreq_acts h hd
  · next h => exact onCandok_acts h hd
  · next h => exact onPrelost_acts h hd
  · next h => exact onPrelead_acts h hd
  · next h => exact onLeaving_acts h hd
  · next h => exact onLost_acts h hd
  · next h => exact onLeader_acts h hd
  · next h => exact onFailed_acts h hd

/-! ## 遷移の前後の処理が変えないもの -/

theorem acknowledge_eq (evt : Event) (m : Member) : ∃ use pipefrom pendingUse pendingPipefrom,
    acknowledge evt m = { m with
        reqidUse := use, reqidPipefrom := pipefrom, pendingUse := pendingUse,
        pendingPipefrom := pendingPipefrom } := by
  unfold acknowledge
  split
  · dsimp only
    split <;> split <;> exact ⟨_, _, _, _, rfl⟩
  · split <;> exact ⟨_, _, _, _, rfl⟩
  · exact ⟨_, _, _, _, rfl⟩

section

variable (evt : Event) (m : Member)

@[simp] theorem acknowledge_step : (acknowledge evt m).step = m.step := by
  obtain ⟨_, _, _, _, he⟩ := acknowledge_eq evt m
  rw [he]

@[simp] theorem acknowledge_key : (acknowledge evt m).key = m.key := by
  obtain ⟨_, _, _, _, he⟩ := acknowledge_eq evt m
  rw [he]

@[simp] theorem acknowledge_myid : (acknowledge evt m).myid = m.myid := by
  obtain ⟨_, _, _, _, he⟩ := acknowledge_eq evt m
  rw [he]

end

theorem flushPipefrom_cases (c : Ctx) : flushPipefrom c = c ∨ ∃ source, flushPipefrom c =
      ⟨{ c.member with
          reqidPipefrom := c.nextId + 1, requestedPipefrom := false, pendingPipefrom := true },
        c.nextId + 1, c.sent ++ [.pipefrom (c.nextId + 1) source]⟩ := by
  unfold flushPipefrom
  split
  · unfold deferPipefrom
    split
    · exact .inl rfl
    · exact .inr ⟨_, rfl⟩
  · exact .inl rfl

@[simp] theorem flushPipefrom_step (c : Ctx) : (flushPipefrom c).member.step = c.member.step := by
  rcases flushPipefrom_cases c with he | ⟨source, he⟩ <;> rw [he]

@[simp] theorem flushPipefrom_key (c : Ctx) : (flushPipefrom c).member.key = c.member.key := by
  rcases flushPipefrom_cases c with he | ⟨source, he⟩ <;> rw [he]

@[simp] theorem flushPipefrom_myid (c : Ctx) : (flushPipefrom c).member.myid = c.member.myid := by
  rcases flushPipefrom_cases c with he | ⟨source, he⟩ <;> rw [he]

/-! ## callback が起こす event -/

/-- callback と、それが起こしうる event の組 -/
inductive Raises (m : Member) : Input → Event → Prop
  | kickoff : Raises m .kickoff .none
  | resync : Raises m .resync .resyncReq
  | exit : Raises m .exit .exiting
  | endUse {r : Nat} : Raises m (.endUse r) (.useRes r)
  | endPipefrom : Raises m .endPipefrom (.resyncDone m.reqidPipefrom)
  | endGetvers {r : Nat} {reply loc : Except GError (Option VersionTree)} :
      Raises m (.endGetvers r reply loc) ((getversVerdict reply loc).event r)
  | disconnected {inp : Input} : Raises m inp .disconnected
  | masterKo {zrc : Int} {value : Bytes} : Raises m (.askMaster zrc value) .masterKo
  | masterEmpty {value : Bytes} : Raises m (.askMaster 0 value) .masterEmpty
  | masterOk {value : Bytes} : Raises m (.askMaster 0 value) (.masterOk (cstr value))
  | listKo {zrc : Int} {names : List Bytes} : Raises m (.listGroup zrc names) .listKo
  | listOk {names : List Bytes} :
      Raises m (.listGroup 0 names) (.listOk (nodevToInt64v names m.key))
  | leaveOk {zrc : Int} : zrc = 0 ∨ zrc = zNoNode → Raises m (.leaveElection zrc) .leaveOk
  | leaveKo {zrc : Int} : Raises m (.leaveElection zrc) .leaveKo
  | watchGone : Raises m (.watchNode zNoNode) .nodeLeft
  | watchKo {zrc : Int} : Raises m (.watchNode zrc) .none
  | createKo {zrc : Int} {path : Option Bytes} : Raises m (.startElection zrc path) .createKo
  | createOk {path s : Bytes} : afterLast 45 path = some s →
      Raises m (.startElection 0 (some path)) (.createOk (strtoll s))
  | masterChange : Raises m .masterChange .masterChange
  | nodeChange : Raises m .nodeChange .nodeLeft

theorem transitionError_raises {m : Member} {inp : Input} {e : Event} {zrc : Int}
    (h : transitionError e zrc = .event evt) (he : Raises m inp e) : Raises m inp evt := by
  unfold transitionError at h
  split at h
  · cases h; exact he
  split at h
  · cases h; exact .disconnected
  · cases h

theorem outcome_raises {m : Member} {inp : Input} (h : inp.outcome env m = .event evt) :
    Raises m inp evt := by
  cases inp with
  | kickoff => cases h; exact .kickoff
  | resync => cases h; exact .resync
  | exit => cases h; exact .exit
  | endUse r => cases h; exact .endUse
  | endPipefrom => cases h; exact .endPipefrom
  | endGetvers r reply loc => cases h; exact .endGetvers
  | askMaster zrc value =>
    simp only [Input.outcome] at h
    split at h
    · exact transitionError_raises h .masterKo
    rename_i hz
    cases Decidable.not_not.mp hz
    split at h
    · cases h; exact .masterEmpty
    · cases h; exact .masterOk
  | listGroup zrc names =>
    simp only [Input.outcome] at h
    split at h
    · exact transitionError_raises h .listKo
    rename_i hz
    cases Decidable.not_not.mp hz
    cases h
    exact .listOk
  | leaveElection zrc =>
    simp only [Input.outcome] at h
    split at h
    · next hz => cases h; exact .leaveOk hz
    · exact transitionError_raises h .leaveKo
  | watchNode zrc =>
    simp only [Input.outcome] at h
    split at h
    · cases h
    split at h
    · next hz => cases h; rw [hz]; exact .watchGone
    · exact transitionError_raises h .watchKo
  | startElection zrc path =>
    simp only [Input.outcome] at h
    split at h
    · exact transitionError_raises h .createKo
    rename_i hz
    cases Decidable.not_not.mp hz
    split at h
    · cases h; exact .createKo
    split at h
    · cases h
    · next hs => cases h; exact .createOk hs
  | masterChange =>
    simp only [Input.outcome] at h
    split at h
    · cases h
    · cases h; exact .masterChange
  | nodeChange =>
    simp only [Input.outcome] at h
    split at h
    · cases h
    · cases h; exact .nodeChange

end Redcurrant.Sqliterepo.Election
