import Redcurrant.Sqliterepo.Election.Network

/-!
# LEADER になる条件と GETVERS の回

前の回への返事は数えられない（`leader_after_full_round`）。
-/

namespace Redcurrant.Sqliterepo.Election

open Infra List Member

variable {env : Env} {evt : Event} {c c' c'' : Ctx} {n n' : Net}

/-! ## 回を始めない動き -/

/-- 回に関わる field -/
def Member.roundState (m : Member) : Nat × Nat × Nat × Nat :=
  (m.reqidGetvers, m.pendingGetvers, m.errorsGetvers, m.concurrentGetvers)

/-- 新しい回を始めず、PRELEAD にも LEADER にもならない動き -/
structure NoRound (c c' : Ctx) : Prop where
  sent : getversSent c'.sent = getversSent c.sent
  nextId : c.nextId ≤ c'.nextId
  reqid : c'.member.reqidGetvers = 0 ∨ c'.member.reqidGetvers = c.member.reqidGetvers
  lead : c'.member.step = .prelead →
    c.member.step = .prelead ∧ c'.member.roundState = c.member.roundState
  leader : c'.member.step = .leader → c.member.step = .leader

theorem NoRound.refl (c : Ctx) : NoRound c c :=
  ⟨rfl, Nat.le_refl _, .inr rfl, fun h => ⟨h, rfl⟩, id⟩

theorem zero_or_trans {x y z : Nat} (h : y = 0 ∨ y = z) (h' : x = 0 ∨ x = y) : x = 0 ∨ x = z := by
  rcases h' with hz | rfl
  · exact .inl hz
  · exact h

theorem NoRound.trans (h : NoRound c c') (h' : NoRound c' c'') : NoRound c c'' := by
  refine ⟨h'.sent.trans h.sent, h.nextId.trans h'.nextId, zero_or_trans h.reqid h'.reqid,
    fun hs => ?_, fun hs => h.leader (h'.leader hs)⟩
  obtain ⟨hs', hr'⟩ := h'.lead hs
  obtain ⟨hs, hr⟩ := h.lead hs'
  exact ⟨hs, hr'.trans hr⟩

theorem noRound_update {f : Member → Member} (hs : (f c.member).step = c.member.step)
    (hr : (f c.member).roundState = c.member.roundState) : NoRound c (c.update f) := by
  refine ⟨rfl, Nat.le_refl _, .inr (congrArg (·.1) hr), ?_, ?_⟩
  · intro h; exact ⟨hs ▸ h, hr⟩
  · intro h; exact hs ▸ h

theorem noRound_of_step (hs : c'.member.step.leads = false)
    (hsent : getversSent c'.sent = getversSent c.sent) (hn : c.nextId ≤ c'.nextId)
    (hr : c'.member.reqidGetvers = 0 ∨ c'.member.reqidGetvers = c.member.reqidGetvers) :
    NoRound c c' := by
  refine ⟨hsent, hn, hr, fun h => ?_, fun h => ?_⟩ <;> rw [h] at hs <;> cases hs

theorem deferUse_noRound (env : Env) (c : Ctx) : NoRound c (deferUse env c).2 := by
  unfold deferUse
  split
  · exact .refl c
  split
  · exact .refl c
  · exact ⟨by simp [getversSent], Nat.le_succ _, .inr rfl, fun h => ⟨h, rfl⟩, id⟩

theorem becomeLeaver_noRound (env : Env) (c : Ctx) : NoRound c (becomeLeaver env c) := by
  unfold becomeLeaver
  split
  · exact noRound_of_step rfl (by simp [Ctx.send, Ctx.update, getversSent]) (Nat.le_refl _) (.inl rfl)
  · exact noRound_of_step rfl rfl (Nat.le_refl _) (.inl rfl)

theorem becomeCandidate_noRound (env : Env) (c : Ctx) : NoRound c (becomeCandidate env c) := by
  unfold becomeCandidate
  split
  · exact noRound_of_step rfl (by simp [Ctx.send, Ctx.update, getversSent]) (Nat.le_refl _) (.inr rfl)
  · exact noRound_of_step rfl rfl (Nat.le_refl _) (.inr rfl)

theorem setStatus_noRound {s : Step} (hs : s.leads = false) : NoRound c (c.setStatus env s) :=
  noRound_of_step hs rfl (Nat.le_refl _) (.inr rfl)

theorem reset_setStatus_noRound {s : Step} (hs : s.leads = false) :
    NoRound c ((c.update reset).setStatus env s) :=
  noRound_of_step hs rfl (Nat.le_refl _) (.inl rfl)

theorem restartElection_noRound (env : Env) (c : Ctx) : NoRound c (restartElection env c) := by
  have h1 : NoRound c (candreqCtx env c) := by
    refine NoRound.trans ?_ (deferUse_noRound env _)
    exact noRound_of_step rfl rfl (Nat.le_refl _) (.inl rfl)
  rcases restartElection_cases env c with ⟨-, he⟩ | he | he | he <;> rw [he]
  · exact becomeLeaver_noRound env c
  · exact reset_setStatus_noRound rfl
  · exact h1.trans (setStatus_noRound rfl)
  · refine h1.trans (noRound_of_step ?_ ?_ (Nat.le_refl _) (.inr rfl)) <;>
      simp [Ctx.send, getversSent, Step.leads]

theorem memberPing_noRound (env : Env) (c : Ctx) : NoRound c (memberPing env c) := by
  have hu := deferUse_noRound env c
  rcases memberPing_cases env c with he | he | he <;> rw [he]
  · exact .refl c
  · exact hu
  · exact hu.trans (becomeLeaver_noRound env _)

theorem resyncIfNotPending_noRound (c : Ctx) : NoRound c (c.update resyncIfNotPending) := by
  refine noRound_update ?_ ?_ <;> (unfold resyncIfNotPending; split <;> rfl)

theorem acknowledge_noRound (evt : Event) (c : Ctx) : NoRound c (c.update (acknowledge evt)) := by
  obtain ⟨_, _, _, _, he⟩ := acknowledge_eq evt c.member
  refine noRound_update ?_ ?_ <;> rw [he]
  rfl

theorem flushPipefrom_noRound (c : Ctx) : NoRound c (flushPipefrom c) := by
  rcases flushPipefrom_cases c with he | ⟨source, he⟩ <;> rw [he]
  · exact .refl c
  · exact ⟨by simp [getversSent], Nat.le_succ _, .inr rfl, fun h => ⟨h, rfl⟩, id⟩

theorem flush_noRound (env : Env) (c : Ctx) : NoRound c (flushUse env (flushPipefrom c)) := by
  have hp := flushPipefrom_noRound c
  unfold flushUse
  split
  · exact hp.trans (restartElection_noRound env _)
  · exact hp

theorem count_reqid (v : Verdict) (m : Member) :
    (v.count m).reqidGetvers = 0 ∨ (v.count m).reqidGetvers = m.reqidGetvers := by
  have hc : m.countGetvers.reqidGetvers = 0 ∨ m.countGetvers.reqidGetvers = m.reqidGetvers := by
    unfold countGetvers
    split
    · split
      · exact .inl rfl
      · exact .inr rfl
    · exact .inr rfl
  cases v <;> exact hc

theorem count_lost_noRound (v : Verdict) (hs : c.member.step = .prelost) :
    NoRound c (c.update v.count) := by
  refine noRound_of_step ?_ rfl (Nat.le_refl _) (count_reqid v _)
  rw [show (c.update v.count).member.step = .prelost from (count_step v _).trans hs]
  rfl

theorem finishPrelost_noRound (hs : c.member.step = .prelost) :
    NoRound c (finishPrelost env c) := by
  have h1 : NoRound c c.clearErrors := by
    refine noRound_of_step ?_ rfl (Nat.le_refl _) (.inr rfl)
    rw [show c.clearErrors.member.step = .prelost from hs]
    rfl
  rcases finishPrelost_cases env c with he | he | he | he | ⟨-, -, he⟩ <;> rw [he]
  · exact .refl c
  · exact h1.trans (becomeLeaver_noRound env _)
  · exact h1.trans (resyncIfNotPending_noRound _)
  · exact h1
  · exact h1.trans (setStatus_noRound rfl)

/-! ## 回を始める動き -/

/-- 新しい回 `id` を始める動き -/
structure NewRound (c c' : Ctx) (id : Nat) (peers : List Bytes) : Prop where
  sent : getversSent c'.sent = getversSent c.sent ++ [(id, peers)]
  fresh : c.nextId < id
  nextId : id ≤ c'.nextId
  reqid : c'.member.reqidGetvers = 0 ∨ c'.member.reqidGetvers = id
  lead : c'.member.step = .prelead →
    c'.member.reqidGetvers = id ∧ c'.member.pendingGetvers = peers.length
  leader : c'.member.step ≠ .leader

variable {id drawn : Nat} {peers : List Bytes} {r : Round}
  {reply loc : Except GError (Option VersionTree)}

theorem NewRound.after (h : NewRound c c' id peers) (h' : NoRound c' c'') :
    NewRound c c'' id peers := by
  refine ⟨h'.sent.trans h.sent, h.fresh, h.nextId.trans h'.nextId, zero_or_trans h.reqid h'.reqid,
    fun hs => ?_, fun hs => h.leader (h'.leader hs)⟩
  obtain ⟨hs', hr⟩ := h'.lead hs
  obtain ⟨hid, hp⟩ := h.lead hs'
  simp only [roundState, Prod.mk.injEq] at hr
  exact ⟨hr.1.trans hid, hr.2.1.trans hp⟩

theorem NewRound.before (h : NoRound c c') (h' : NewRound c' c'' id peers) :
    NewRound c c'' id peers :=
  ⟨by rw [h'.sent, h.sent], Nat.lt_of_le_of_lt h.nextId h'.fresh, h'.nextId, h'.reqid, h'.lead,
    h'.leader⟩

theorem deferGetvers_newRound (hp : env.peers = some peers) (hl : c.member.step ≠ .leader) :
    NewRound c (deferGetvers env c) (c.nextId + 1) peers := by
  unfold deferGetvers
  rw [hp]
  exact ⟨by simp [getversSent], Nat.lt_succ_self _, Nat.le_refl _, .inr rfl, fun _ => ⟨rfl, rfl⟩, hl⟩

theorem deferGetvers_rounds (env : Env) (hl : c.member.step ≠ .leader) :
    NoRound c (deferGetvers env c) ∨ ∃ id peers, NewRound c (deferGetvers env c) id peers := by
  cases hp : env.peers with
  | none =>
    refine .inl ?_
    unfold deferGetvers
    rw [hp]
    exact .refl c
  | some peers => exact .inr ⟨_, peers, deferGetvers_newRound hp hl⟩

/-- PRELEAD に入るときに `get_peers` が失敗しないこと -/
def RoundStarts (env : Env) (c : Ctx) : Event → Prop
  | .listOk ids => c.member.step = .candok → c.member.groupMaster ids = true → env.peers.isSome
  | _ => True

theorem manageList_rounds {ids : List Int}
    (hp : c.member.groupMaster ids = true → env.peers.isSome) :
    NoRound c (manageList env ids c) ∨ ∃ id peers, NewRound c (manageList env ids c) id peers := by
  have h1 : NoRound c (c.setStatus env .candok) := setStatus_noRound rfl
  have h2 : NoRound c (prelostCtx env ids c) := noRound_of_step rfl rfl (Nat.le_refl _) (.inr rfl)
  rcases manageList_cases env c ids with ⟨-, he⟩ | ⟨-, hgm, he⟩ | ⟨-, -, he | ⟨path, he⟩⟩ <;> rw [he]
  · exact .inl (h1.trans (restartElection_noRound env _))
  · obtain ⟨peers, hp⟩ := Option.isSome_iff_exists.mp (hp hgm)
    -- PRELEAD になることと回を始めることは一つの動き
    have h2 := deferGetvers_newRound hp (c := (c.setStatus env .candok).update
      fun m => (m.setMasterId m.myid).setStatus env .prelead)
      (by simp [Ctx.update, setStatus])
    exact .inr ⟨_, peers, h2.sent, h2.fresh, h2.nextId, h2.reqid, h2.lead, h2.leader⟩
  · exact .inl (h2.trans (becomeLeaver_noRound env _))
  · have h3 : NoRound c ((prelostCtx env ids c).send (.ask path)) :=
      h2.trans (noRound_of_step rfl (by simp [Ctx.send, getversSent]) (Nat.le_refl _) (.inr rfl))
    have hl : ((prelostCtx env ids c).send (.ask path)).member.step ≠ .leader := by
      show Step.prelost ≠ .leader
      decide
    rcases deferGetvers_rounds env hl with h | ⟨id, peers, h⟩
    · exact .inl (h3.trans h)
    · exact .inr ⟨id, peers, h.before h3⟩

/-! ## 返事を数える動き -/

/-- PRELEAD で、今の回の返事 `v` を数える動き -/
structure Counted (v : Verdict) (c c' : Ctx) : Prop where
  sent : getversSent c'.sent = getversSent c.sent
  nextId : c.nextId ≤ c'.nextId
  reqid : c'.member.reqidGetvers = 0 ∨ c'.member.reqidGetvers = c.member.reqidGetvers
  lead : c'.member.step = .prelead →
    v ≠ .outdated ∧ c'.member.roundState = (v.count c.member).roundState
  leader : c'.member.step = .leader → v ≠ .outdated ∧ (v.count c.member).pendingGetvers = 0 ∧
      (v.count c.member).errorsGetvers ≤ 1 ∧ (v.count c.member).concurrentGetvers ≤ 1

variable {v : Verdict}

theorem Counted.after (h : Counted v c c') (h' : NoRound c' c'') : Counted v c c'' := by
  refine ⟨h'.sent.trans h.sent, h.nextId.trans h'.nextId, zero_or_trans h.reqid h'.reqid,
    fun hs => ?_, fun hs => h.leader (h'.leader hs)⟩
  obtain ⟨hs', hr⟩ := h'.lead hs
  obtain ⟨hv, hr'⟩ := h.lead hs'
  exact ⟨hv, hr.trans hr'⟩

theorem becomeLeaver_leads (env : Env) (c : Ctx) : (becomeLeaver env c).member.step.leads = false := by
  rcases becomeLeaver_step env c with h | h <;> rw [h] <;> rfl

theorem counted_becomeLeaver (env : Env) {c1 : Ctx} (hsent : c1.sent = c.sent)
    (hn : c1.nextId = c.nextId) (hr : c1.member.reqidGetvers = (v.count c.member).reqidGetvers) :
    Counted v c (becomeLeaver env c1) := by
  have hb := becomeLeaver_noRound env c1
  have hl := becomeLeaver_leads env c1
  refine ⟨hsent ▸ hb.sent, hn ▸ hb.nextId, ?_, fun h => ?_, fun h => ?_⟩
  · exact zero_or_trans (hr ▸ count_reqid v c.member) hb.reqid
  · rw [h] at hl
    cases hl
  · rw [h] at hl
    cases hl

theorem finishPrelead_counted (hs : c.member.step = .prelead) (hv : v ≠ .outdated) :
    Counted v c (finishPrelead env (c.update v.count)) := by
  unfold finishPrelead
  split
  · -- まだ待つものがある
    refine ⟨rfl, Nat.le_refl _, count_reqid v c.member, fun _ => ⟨hv, rfl⟩, ?_⟩
    simp [Ctx.update, hs]
  rename_i ha
  have hp : (v.count c.member).pendingGetvers = 0 := by
    simp only [hasAction, Bool.or_eq_true, not_or, bne_iff_ne, ne_eq, not_not] at ha
    exact ha.1.1
  dsimp only
  split
  · exact counted_becomeLeaver env rfl rfl rfl
  rename_i herr
  split
  · exact counted_becomeLeaver env rfl rfl rfl
  · next hcon =>
    refine ⟨rfl, Nat.le_refl _, count_reqid v c.member, fun h => (by cases h), fun _ => ?_⟩
    exact ⟨hv, hp, Nat.not_lt.mp herr, Nat.not_lt.mp hcon⟩

/-! ## 一つの遷移 -/

/-- **一つの動きが回に対してすること。** -/
theorem acts_rounds (ha : Acts env c evt c') (hp : RoundStarts env c evt) :
    NoRound c c' ∨ (∃ id peers, NewRound c c' id peers) ∨
      ∃ v : Verdict, evt = v.event c.member.reqidGetvers ∧ c.member.step = .prelead ∧
        Counted v c c' := by
  cases ha with
  | ignored _ => exact .inl (.refl c)
  | disconnect | left _ | forget _ => exact .inl (reset_setStatus_noRound rfl)
  | restart _ => exact .inl (restartElection_noRound env c)
  | restartResync _ =>
    exact .inl ((resyncIfNotPending_noRound c).trans (restartElection_noRound env _))
  | exitEarly _ | leave _ | leaveAgain _ => exact .inl (becomeLeaver_noRound env c)
  | created hs _ =>
    refine .inl (NoRound.trans ?_ (becomeCandidate_noRound env _))
    refine noRound_of_step ?_ ?_ (Nat.le_refl _) (.inr rfl) <;>
      simp [Ctx.send, Ctx.update, setId, hs, Step.leads, getversSent]
  | unwatched _ _ | lostResync _ => exact .inl (noRound_of_step rfl rfl (Nat.le_refl _) (.inr rfl))
  | notCreated _ | resynced _ _ _ => exact .inl (setStatus_noRound rfl)
  | ping _ => exact .inl (memberPing_noRound env c)
  | resync _ => exact .inl (resyncIfNotPending_noRound c)
  | list hs =>
    rcases manageList_rounds (hp hs) with h | h
    · exact .inl h
    · exact .inr (.inl h)
  | candidate _ => exact .inl (becomeCandidate_noRound env c)
  | retry hs =>
    have hl : c.member.step ≠ .leader := by rcases hs with h | h <;> simp [h]
    have h2 : ∀ c1 : Ctx, NoRound c1 (c1.update fun m => { m with lastStatus := env.now }) :=
      fun c1 => noRound_update rfl rfl
    rcases deferGetvers_rounds env hl with h | ⟨id, peers, h⟩
    · exact .inl (h.trans (h2 _))
    · exact .inr (.inl ⟨id, peers, h.after (h2 _)⟩)
  | @masterOk url hs =>
    have h1 : NoRound c (c.update (·.setMasterUrl (some url))) := noRound_update rfl rfl
    exact .inl (h1.trans (finishPrelost_noRound hs))
  | replyLost hs _ =>
    exact .inl ((count_lost_noRound _ hs).trans (finishPrelost_noRound ((count_step _ _).trans hs)))
  | outdatedLost hs =>
    exact .inl ((count_lost_noRound .outdated hs).trans (resyncIfNotPending_noRound _))
  | replyLead hs hv => exact .inr (.inr ⟨_, rfl, hs, finishPrelead_counted hs hv⟩)
  | outdatedLead hs => exact .inr (.inr ⟨.outdated, rfl, hs, counted_becomeLeaver env rfl rfl rfl⟩)
  | askUse _ => exact .inl (noRound_update rfl rfl)

/-- **一つの遷移が回に対してすること。** -/
theorem transition_rounds (hp : RoundStarts env c evt) :
    NoRound c (transition env evt c) ∨ (∃ id peers, NewRound c (transition env evt c) id peers) ∨
      ∃ v : Verdict, evt = v.event c.member.reqidGetvers ∧ c.member.step = .prelead ∧
        Counted v c (transition env evt c) := by
  have hack := acknowledge_noRound evt c
  have htail : NoRound (transition' env evt c) (transition env evt c) := flush_noRound env _
  have hp' : RoundStarts env (c.update (acknowledge evt)) evt := by
    cases evt <;> exact hp
  rcases acts_rounds (transition'_acts env evt c) hp' with h | ⟨id, peers, h⟩ | ⟨v, he, hs, h⟩
  · exact .inl ((hack.trans h).trans htail)
  · exact .inr (.inl ⟨id, peers, (h.before hack).after htail⟩)
  -- 返事の event は `acknowledge` を素通りする
  have hid : c.update (acknowledge evt) = c := by rw [he]; cases v <;> rfl
  rw [hid] at he hs h
  exact .inr (.inr ⟨v, he, hs, h.after htail⟩)

theorem transition'_reply (hs : c.member.step = .prelead) :
    transition' env (v.event c.member.reqidGetvers) c =
      if v = .outdated then becomeLeaver env (c.update v.count)
      else finishPrelead env (c.update v.count) := by
  cases v <;>
    simp [transition', dispatch, onPrelead, acknowledge, Ctx.update, hs, Verdict.count, Verdict.event]

theorem transition_counted (hs : c.member.step = .prelead) :
    Counted v c (transition env (v.event c.member.reqidGetvers) c) := by
  refine Counted.after ?_ (flush_noRound env _)
  rw [transition'_reply hs]
  split
  · exact counted_becomeLeaver env rfl rfl rfl
  · next hv => exact finishPrelead_counted hs hv

/-- **今の回のものでない返事は回の記録も `step` も変えない。** -/
theorem transition_stale {reqid : Nat} (hr : reqid ≠ c.member.reqidGetvers)
    (hs : c.member.step ≠ .none) :
    (transition env (v.event reqid) c).member.step = c.member.step ∧
      (transition env (v.event reqid) c).member.roundState = c.member.roundState := by
  have he : transition' env (v.event reqid) c = c := by
    cases v <;> cases hst : c.member.step <;>
      simp [transition', dispatch, acknowledge, Ctx.update, hst, hr, Verdict.event, onNone,
        onCandreq, onCandok, onPrelost, onPrelead, onLeaving, onLost, onLeader, onFailed]
  have hf : (flushPipefrom c).member.step = c.member.step ∧
      (flushPipefrom c).member.roundState = c.member.roundState := by
    rcases flushPipefrom_cases c with he | ⟨source, he⟩ <;> rw [he] <;> exact ⟨rfl, rfl⟩
  unfold transition flushUse
  rw [he, if_neg (by rw [hf.1]; exact fun h => hs h.2)]
  exact hf

/-! ## 系の不変条件 -/

/-- 回 `id` の返事を待っている peer -/
def Net.waiting (n : Net) (id : Nat) : List Bytes := (n.asked.filter (·.1 == id)).map (·.2)

/-- 回と、出した依頼の対応 -/
structure RoundInv (n : Net) : Prop where
  asked : ∀ a ∈ n.asked, 0 < a.1 ∧ a.1 ≤ n.ctx.nextId
  reqid : n.ctx.member.reqidGetvers = 0 ∨
    ∃ r, n.round = some r ∧ r.reqid = n.ctx.member.reqidGetvers
  round : ∀ r, n.round = some r → 0 < r.reqid ∧ r.reqid ≤ n.ctx.nextId ∧
    (n.waiting r.reqid ++ r.replies.map (·.1)).Perm r.peers

/-- PRELEAD の member は最後の回の返事をすべて数えている -/
structure RoundLead (n : Net) (r : Round) : Prop where
  pending : n.ctx.member.pendingGetvers = (n.waiting r.reqid).length
  current : n.ctx.member.pendingGetvers ≠ 0 → n.ctx.member.reqidGetvers = r.reqid
  fine : ∀ p ∈ r.replies, p.2 ≠ .outdated
  errors : r.replies.countP (·.2 == .error) ≤ n.ctx.member.errorsGetvers
  concurrent : r.replies.countP (·.2 == .concurrent) ≤ n.ctx.member.concurrentGetvers

def RoundsOk (n : Net) : Prop :=
  RoundInv n ∧ (n.ctx.member.step = .prelead → ∃ r, n.round = some r ∧ RoundLead n r)

theorem after_of_no_getvers (h : getversSent c.sent = []) :
    (n.after c).asked = n.asked ∧ (n.after c).round = n.round := by
  obtain ⟨ha, hr⟩ := foldl_absorb_getvers c.sent { n with ctx := c }
  rw [h] at ha hr
  exact ⟨by simpa [Net.after] using ha, hr⟩

theorem RoundInv.after (h : RoundInv n) (hsent : getversSent c'.sent = [])
    (hn : n.ctx.nextId ≤ c'.nextId)
    (hreq : c'.member.reqidGetvers = 0 ∨
      c'.member.reqidGetvers = n.ctx.member.reqidGetvers) : RoundInv (n.after c') := by
  obtain ⟨ha, hr⟩ := after_of_no_getvers (n := n) hsent
  constructor
  · intro a hin
    rw [ha] at hin
    rw [after_ctx]
    exact ⟨(h.asked a hin).1, (h.asked a hin).2.trans hn⟩
  · rw [after_ctx, hr]
    rcases hreq with hz | he
    · exact .inl hz
    · rw [he]; exact h.reqid
  · intro r hin
    rw [hr] at hin
    obtain ⟨h0, h1, h2⟩ := h.round r hin
    rw [after_ctx]
    refine ⟨h0, h1.trans hn, ?_⟩
    rw [Net.waiting, ha]
    exact h2

theorem roundInv_noRound (h : RoundInv n) (hc : NoRound (n.start drawn) c') :
    RoundInv (n.after c') :=
  h.after (hc.sent.trans rfl) (Nat.le_trans (Nat.le_add_right _ drawn) hc.nextId) hc.reqid

theorem roundsOk_noRound (h : RoundsOk n) (hc : NoRound (n.start drawn) c') :
    RoundsOk (n.after c') := by
  obtain ⟨ha, hr⟩ := after_of_no_getvers (n := n) (hc.sent.trans rfl)
  refine ⟨roundInv_noRound h.1 hc, fun hs => ?_⟩
  rw [after_ctx] at hs
  obtain ⟨hs, hst⟩ := hc.lead hs
  obtain ⟨r, hround, hlead⟩ := h.2 hs
  simp only [roundState, Prod.mk.injEq] at hst
  obtain ⟨e1, e2, e3, e4⟩ := hst
  refine ⟨r, hr.trans hround, ?_, ?_, hlead.fine, ?_, ?_⟩
  · rw [after_ctx, Net.waiting, ha, e2]; exact hlead.pending
  · rw [after_ctx, e2, e1]; exact hlead.current
  · rw [after_ctx, e3]; exact hlead.errors
  · rw [after_ctx, e4]; exact hlead.concurrent

theorem roundsOk_newRound (h : RoundInv n) (hc : NewRound (n.start drawn) c' id peers) :
    RoundsOk (n.after c') := by
  have hsent : getversSent c'.sent = [(id, peers)] := hc.sent
  obtain ⟨ha, hr⟩ := foldl_absorb_getvers c'.sent { n with ctx := c' }
  rw [hsent] at ha hr
  have ha : (n.after c').asked = n.asked ++ peers.map (id, ·) := by simpa [Net.after] using ha
  have hr : (n.after c').round = some ⟨id, peers, []⟩ := hr
  have hfresh : n.ctx.nextId < id := Nat.lt_of_le_of_lt (Nat.le_add_right _ drawn) hc.fresh
  have hn : n.ctx.nextId ≤ c'.nextId := (Nat.le_of_lt hfresh).trans hc.nextId
  -- 前の回の依頼の id はすべて `id` より小さい
  have hw : (n.after c').waiting id = peers := by
    have hold : n.asked.filter (·.1 == id) = [] := by
      rw [filter_eq_nil_iff]
      intro a hin he
      have := (h.asked a hin).2
      rw [beq_iff_eq.mp he] at this
      omega
    rw [Net.waiting, ha, filter_append, hold]
    simp [filter_map]
  refine ⟨⟨?_, ?_, ?_⟩, ?_⟩
  · intro a hin
    rw [ha] at hin
    rw [after_ctx]
    rcases mem_append.mp hin with hin | hin
    · exact ⟨(h.asked a hin).1, (h.asked a hin).2.trans hn⟩
    · obtain ⟨p, -, rfl⟩ := mem_map.mp hin
      exact ⟨Nat.zero_lt_of_lt hfresh, hc.nextId⟩
  · rw [after_ctx, hr]
    rcases hc.reqid with hz | he
    · exact .inl hz
    · exact .inr ⟨_, rfl, he.symm⟩
  · intro r hin
    rw [hr] at hin
    cases hin
    rw [after_ctx, hw]
    exact ⟨Nat.zero_lt_of_lt hfresh, hc.nextId, by simp⟩
  · intro hs
    rw [after_ctx] at hs
    obtain ⟨hid, hp⟩ := hc.lead hs
    refine ⟨_, hr, ?_, ?_, ?_, ?_, ?_⟩
    · rw [after_ctx, hw]; exact hp
    · intro _; rw [after_ctx]; exact hid
    · simp
    · simp
    · simp

/-! ## 返事の記録 -/

variable {reqid : Nat} {peer : Bytes}

theorem waiting_record (hin : (reqid, peer) ∈ n.asked) (id : Nat) : (n.waiting id).Perm
    (if reqid = id then peer :: (n.record reqid peer v).waiting id
      else (n.record reqid peer v).waiting id) := by
  have hp := ((perm_cons_erase hin).filter (·.1 == id)).map (·.2)
  refine hp.trans (List.Perm.of_eq ?_)
  by_cases he : reqid = id <;> simp [he, Net.waiting, Net.record]

theorem record_round (h : n.round = some r) : (n.record reqid peer v).round =
    some (if r.reqid = reqid then { r with replies := r.replies ++ [(peer, v)] } else r) := by
  simp [Net.record, h]

theorem record_round_cases {r' : Round} (h : (n.record reqid peer v).round = some r') :
    ∃ r, n.round = some r ∧
      ((r.reqid = reqid ∧ r' = { r with replies := r.replies ++ [(peer, v)] }) ∨
        (r.reqid ≠ reqid ∧ r' = r)) := by
  obtain ⟨r, hr, he⟩ := Option.map_eq_some_iff.mp h
  refine ⟨r, hr, ?_⟩
  split at he
  · next hid => exact .inl ⟨hid, he.symm⟩
  · next hid => exact .inr ⟨hid, he.symm⟩

theorem record_inv (h : RoundInv n) (hin : (reqid, peer) ∈ n.asked) :
    RoundInv (n.record reqid peer v) := by
  refine ⟨fun a ha => h.asked a (mem_of_mem_erase ha), ?_, ?_⟩
  · rcases h.reqid with hz | ⟨r, hr, he⟩
    · exact .inl hz
    · refine .inr ⟨_, record_round hr, ?_⟩
      split <;> exact he
  intro r' hr'
  obtain ⟨r, hr, ⟨hid, rfl⟩ | ⟨hid, rfl⟩⟩ := record_round_cases hr'
  · -- 減った peer が返事の列に移る
    obtain ⟨h0, h1, h2⟩ := h.round r hr
    refine ⟨h0, h1, List.Perm.trans ?_ h2⟩
    have hw := waiting_record (v := v) hin r.reqid
    rw [if_pos hid.symm] at hw
    refine List.Perm.trans ?_ (hw.append_right _).symm
    rw [map_append, ← append_assoc]
    exact perm_append_comm
  · obtain ⟨h0, h1, h2⟩ := h.round r' hr
    refine ⟨h0, h1, List.Perm.trans ?_ h2⟩
    have hw := waiting_record (v := v) hin r'.reqid
    rw [if_neg (Ne.symm hid)] at hw
    exact hw.symm.append_right _

theorem record_stale (h : RoundsOk n) (hin : (reqid, peer) ∈ n.asked)
    (hr : reqid ≠ n.ctx.member.reqidGetvers) : RoundsOk (n.record reqid peer v) := by
  refine ⟨record_inv h.1 hin, fun hs => ?_⟩
  obtain ⟨r, hround, hl⟩ := h.2 hs
  -- 最後の回への返事なら、member の id はその回のもの
  have hid : r.reqid ≠ reqid := by
    intro he
    have hmem : peer ∈ n.waiting r.reqid := by
      refine mem_map.mpr ⟨(reqid, peer), mem_filter.mpr ⟨hin, ?_⟩, rfl⟩
      simp [he]
    have hp : n.ctx.member.pendingGetvers ≠ 0 := by
      rw [hl.pending]
      exact Nat.pos_iff_ne_zero.mp (length_pos_of_mem hmem)
    exact hr (he ▸ (hl.current hp).symm)
  have hw := waiting_record (v := v) hin r.reqid
  rw [if_neg (Ne.symm hid)] at hw
  refine ⟨r, by rw [record_round hround, if_neg hid], ?_, hl.current, hl.fine, hl.errors,
    hl.concurrent⟩
  exact hl.pending.trans hw.length_eq

/-! ## 数えられた返事 -/

theorem count_fields (v : Verdict) (m : Member) :
    (v.count m).pendingGetvers = m.pendingGetvers - 1 ∧
      (v.count m).errorsGetvers = m.errorsGetvers + (if v = .error then 1 else 0) ∧
      (v.count m).concurrentGetvers = m.concurrentGetvers + (if v = .concurrent then 1 else 0) ∧
      (m.pendingGetvers - 1 ≠ 0 → (v.count m).reqidGetvers = m.reqidGetvers) := by
  have hc : m.countGetvers.pendingGetvers = m.pendingGetvers - 1 ∧
      m.countGetvers.errorsGetvers = m.errorsGetvers ∧
      m.countGetvers.concurrentGetvers = m.concurrentGetvers ∧
      (m.pendingGetvers - 1 ≠ 0 → m.countGetvers.reqidGetvers = m.reqidGetvers) := by
    unfold countGetvers
    split
    · exact ⟨rfl, rfl, rfl, fun h => if_neg h⟩
    · exact ⟨by omega, rfl, rfl, fun _ => rfl⟩
  obtain ⟨h1, h2, h3, h4⟩ := hc
  cases v <;> simpa [Verdict.count, h1, h2, h3] using h4

theorem countP_snoc (w : Verdict) (l : List (Bytes × Verdict)) :
    (l ++ [(peer, v)]).countP (·.2 == w) = l.countP (·.2 == w) + (if v = w then 1 else 0) := by
  by_cases h : v = w <;> simp [h]

/-! ## run -/

/-- PRELEAD に入る callback -/
def entersPrelead (m : Member) : Input → Bool
  | .listGroup zrc names =>
    zrc == 0 && m.step == .candok && m.groupMaster (nodevToInt64v names m.key)
  | _ => false

/-- PRELEAD に入る step では `get_peers` が失敗しない -/
def GetversOk (n : Net) : NetLabel → Prop
  | .callback env _ input => entersPrelead n.ctx.member input = true → env.peers.isSome = true
  | _ => True

instance : ∀ n l, Decidable (GetversOk n l)
  | n, .callback env _ input =>
    inferInstanceAs (Decidable (entersPrelead n.ctx.member input = true → env.peers.isSome = true))
  | _, .reply .. => .isTrue trivial
  | _, .pipeDone .. => .isTrue trivial

theorem roundStarts_of_ok {input : Input} (hok : GetversOk n (.callback env drawn input))
    (ho : input.outcome env n.ctx.member = .event evt) : RoundStarts env (n.start drawn) evt := by
  cases outcome_raises ho with
  | listOk =>
    intro hs hg
    refine hok ?_
    simp only [entersPrelead, Bool.and_eq_true, beq_iff_eq]
    exact ⟨⟨trivial, hs⟩, hg⟩
  | @endGetvers r reply loc => cases getversVerdict reply loc <;> trivial
  | _ => trivial

/-- どの peer も返事をし、「古い」は無く、error と競合は 1 つまで -/
structure Round.Fulfilled (r : Round) : Prop where
  complete : (r.replies.map (·.1)).Perm r.peers
  fine : ∀ p ∈ r.replies, p.2 ≠ .outdated
  errors : r.replies.countP (·.2 == .error) ≤ 1
  concurrent : r.replies.countP (·.2 == .concurrent) ≤ 1

theorem roundsOk_after (h : RoundsOk n)
    (hc : NoRound (n.start drawn) c' ∨ ∃ id peers, NewRound (n.start drawn) c' id peers) :
    RoundsOk (n.after c') ∧ (c'.member.step = .leader → n.ctx.member.step = .leader) := by
  rcases hc with hc | ⟨id, peers, hc⟩
  · exact ⟨roundsOk_noRound h hc, hc.leader⟩
  · exact ⟨roundsOk_newRound h.1 hc, fun hs => absurd hs hc.leader⟩

theorem event_reqid_inj {v v' : Verdict} {r r' : Nat} (h : v.event r = v'.event r') : r = r' := by
  cases v <;> cases v' <;> cases h <;> rfl

/-- 回の不変条件を保ち、LEADER になるのは回が果たされたときだけ -/
def RoundStep (n n' : Net) : Prop :=
  RoundsOk n' ∧ (n.ctx.member.step = .prelead → n'.ctx.member.step = .leader →
    ∃ r, n'.round = some r ∧ r.Fulfilled)

/-- **返事の後も、PRELEAD の member は返事を数えている。** -/
theorem roundStep_counted (h : RoundInv n) (hin : (reqid, peer) ∈ n.asked)
    (hround : n.round = some r) (hl : RoundLead n r) (hid : r.reqid = reqid)
    (hc : Counted v (n.start drawn) c') : RoundStep n ((n.record reqid peer v).after c') := by
  obtain ⟨ha, hr⟩ := after_of_no_getvers (n := n.record reqid peer v) (hc.sent.trans rfl)
  have hinv : RoundInv ((n.record reqid peer v).after c') :=
    (record_inv (v := v) h hin).after (hc.sent.trans rfl)
      (Nat.le_trans (Nat.le_add_right _ drawn) hc.nextId) hc.reqid
  have hround' : (n.record reqid peer v).round =
      some { r with replies := r.replies ++ [(peer, v)] } := by
    rw [record_round hround, if_pos hid]
  obtain ⟨c1, c2, c3, c4⟩ := count_fields v (n.start drawn).member
  have hw := (waiting_record (v := v) hin r.reqid).length_eq
  rw [if_pos hid.symm, length_cons, ← hl.pending] at hw
  have hfine : v ≠ .outdated → ∀ p ∈ r.replies ++ [(peer, v)], p.2 ≠ .outdated := by
    intro hv p hp
    rcases mem_append.mp hp with hp | hp
    · exact hl.fine p hp
    · rw [mem_singleton.mp hp]; exact hv
  have herrors : (r.replies ++ [(peer, v)]).countP (·.2 == .error) ≤
      (v.count (n.start drawn).member).errorsGetvers := by
    rw [c2, countP_snoc]
    exact Nat.add_le_add_right hl.errors _
  have hconcurrent : (r.replies ++ [(peer, v)]).countP (·.2 == .concurrent) ≤
      (v.count (n.start drawn).member).concurrentGetvers := by
    rw [c3, countP_snoc]
    exact Nat.add_le_add_right hl.concurrent _
  refine ⟨⟨hinv, fun hs => ?_⟩, fun _ hs => ?_⟩
  · rw [after_ctx] at hs
    obtain ⟨hv, hst⟩ := hc.lead hs
    simp only [roundState, Prod.mk.injEq] at hst
    obtain ⟨e1, e2, e3, e4⟩ := hst
    refine ⟨_, hr.trans hround', ?_, ?_, hfine hv, ?_, ?_⟩
    · rw [after_ctx, Net.waiting, ha, e2, c1]
      show n.ctx.member.pendingGetvers - 1 = ((n.record reqid peer v).waiting r.reqid).length
      omega
    · rw [after_ctx, e2, e1]
      intro hne
      rw [c4 (c1 ▸ hne)]
      exact hl.current (by omega)
    · rw [after_ctx, e3]; exact herrors
    · rw [after_ctx, e4]; exact hconcurrent
  · rw [after_ctx] at hs
    obtain ⟨hv, hp, he, hcon⟩ := hc.leader hs
    rw [c1] at hp
    -- 待つ peer は今の返事のものだけだった
    have hnil : (n.record reqid peer v).waiting r.reqid = [] := by
      refine eq_nil_of_length_eq_zero ?_
      have : n.ctx.member.pendingGetvers - 1 = 0 := hp
      omega
    refine ⟨_, hr.trans hround', ?_, hfine hv, herrors.trans he, hconcurrent.trans hcon⟩
    have hperm := ((record_inv (v := v) h hin).round _ hround').2.2
    rwa [hnil] at hperm

theorem roundStep_quiet {n0 : Net} {c : Ctx} (h0 : RoundsOk n0) (hctx : n0.ctx = n.ctx)
    (hc : NoRound (n0.start drawn) c ∨ ∃ id peers, NewRound (n0.start drawn) c id peers) :
    RoundStep n (n0.after c) := by
  obtain ⟨hr, hlead⟩ := roundsOk_after h0 hc
  refine ⟨hr, fun hp hld => ?_⟩
  rw [after_ctx] at hld
  have := hlead hld
  rw [hctx, hp] at this
  cases this

theorem roundStep_transition {n0 : Net} {env : Env} {evt : Event} (h0 : RoundsOk n0)
    (hctx : n0.ctx = n.ctx) (hstarts : RoundStarts env (n0.start drawn) evt)
    (hev : ∀ v : Verdict, evt = v.event n0.ctx.member.reqidGetvers → n0.ctx.member.step ≠ .prelead) :
    RoundStep n (n0.after (transition env evt (n0.start drawn))) := by
  rcases transition_rounds hstarts with hc | hc | ⟨v, he, hp, -⟩
  · exact roundStep_quiet h0 hctx (.inl hc)
  · exact roundStep_quiet h0 hctx (.inr hc)
  · exact absurd hp (hev v he)

theorem roundStep_callback {env : Env} {input : Input} (h : RoundsOk n)
    (hok : GetversOk n (.callback env drawn input))
    (hs : netStep n (.callback env drawn input) = some n') : RoundStep n n' := by
  obtain ⟨hg, -, hrun⟩ := netStep_callback hs
  rcases run_cases hrun with ⟨-, rfl⟩ | ⟨evt, ho, rfl⟩
  · exact roundStep_quiet h rfl (.inl (.refl _))
  · exact roundStep_transition h rfl (roundStarts_of_ok hok ho) fun v he =>
      absurd he (outcome_ne_reply ho hg v _)

theorem roundStep_pipeDone {env : Env} (h : RoundsOk n)
    (hs : netStep n (.pipeDone env drawn id) = some n') : RoundStep n n' := by
  simp only [netStep] at hs
  split at hs
  · have h0 : RoundsOk { n with pipes := n.pipes.erase id } :=
      ⟨⟨h.1.asked, h.1.reqid, h.1.round⟩, fun hp => by
        obtain ⟨r, hr, hl⟩ := h.2 hp
        exact ⟨r, hr, hl.pending, hl.current, hl.fine, hl.errors, hl.concurrent⟩⟩
    rcases run_cases hs with ⟨-, rfl⟩ | ⟨evt, ho, rfl⟩
    · exact roundStep_quiet h0 rfl (.inl (.refl _))
    · cases ho
      exact roundStep_transition h0 rfl trivial fun v he => by cases v <;> cases he
  · cases hs

theorem reqid_of_waiting {reqid : Nat} {peer : Bytes} (h : RoundInv n)
    (hin : (reqid, peer) ∈ n.asked) (hround : n.round = some r)
    (hcur : reqid = n.ctx.member.reqidGetvers) : r.reqid = reqid := by
  rcases h.reqid with hz | ⟨r', hr', he⟩
  · have := (h.asked _ hin).1
    rw [hcur, hz] at this
    exact absurd this (Nat.lt_irrefl 0)
  rw [hround] at hr'
  cases hr'
  exact he.trans hcur.symm

theorem roundStep_reply {env : Env} {reqid : Nat} {peer : Bytes} (h : RoundsOk n)
    (hs : netStep n (.reply env drawn reqid peer reply loc) = some n') : RoundStep n n' := by
  simp only [netStep] at hs
  split at hs
  · next hin =>
    generalize hv : getversVerdict reply loc = v at hs
    rcases run_cases hs with ⟨ho, -⟩ | ⟨evt, ho, rfl⟩
    · cases ho
    simp only [Input.outcome, hv] at ho
    cases ho
    by_cases hcur : reqid = n.ctx.member.reqidGetvers ∧ n.ctx.member.step = .prelead
    · -- 最後の回の返事が数えられる
      obtain ⟨r, hround, hl⟩ := h.2 hcur.2
      have hid := reqid_of_waiting h.1 hin hround hcur.1
      have hc : Counted v (n.start drawn) (transition env (v.event reqid) (n.start drawn)) := by
        rw [hcur.1]
        exact transition_counted hcur.2
      exact roundStep_counted h.1 hin hround hl hid hc
    · have h0 : RoundsOk (n.record reqid peer v) := by
        by_cases hr : reqid = n.ctx.member.reqidGetvers
        · exact ⟨record_inv h.1 hin, fun hp => absurd ⟨hr, hp⟩ hcur⟩
        · exact record_stale h hin hr
      refine roundStep_transition h0 rfl (by cases v <;> trivial) fun v' he hp => ?_
      exact hcur ⟨event_reqid_inj he, hp⟩
  · cases hs

theorem netStep_rounds {l : NetLabel} (h : RoundsOk n) (hok : GetversOk n l)
    (hs : netStep n l = some n') : RoundStep n n' := by
  cases l with
  | callback env drawn input => exact roundStep_callback h hok hs
  | pipeDone env drawn id => exact roundStep_pipeDone h hs
  | reply env drawn reqid peer reply loc => exact roundStep_reply h hs

theorem roundsOk_initial (key : Bytes) (now : Nat) : RoundsOk (initialNet key now) := by
  refine ⟨⟨?_, .inl rfl, ?_⟩, ?_⟩
  · intro a ha; cases ha
  · intro r hr; cases hr
  · intro hs; cases hs

theorem netStep_stale (h : RoundInv n)
    (hs : netStep n (.reply env drawn reqid peer reply loc) = some n') (hround : n.round = some r)
    (hne : reqid ≠ r.reqid) (hstep : n.ctx.member.step ≠ .none) :
    n'.ctx.member.step = n.ctx.member.step ∧
      n'.ctx.member.roundState = n.ctx.member.roundState := by
  simp only [netStep] at hs
  split at hs
  · next hin =>
    have hr : reqid ≠ n.ctx.member.reqidGetvers := by
      rcases h.reqid with hz | ⟨r', hr', he⟩
      · rw [hz]; exact Nat.pos_iff_ne_zero.mp (h.asked _ hin).1
      rw [hround] at hr'
      cases hr'
      exact fun hh => hne (hh.trans he.symm)
    rcases run_cases hs with ⟨ho, -⟩ | ⟨evt, ho, rfl⟩
    · cases ho
    cases ho
    rw [after_ctx]
    exact transition_stale hr hstep
  · cases hs

/-- **`get_peers` が失敗しない run で PRELEAD から LEADER に移るのは、最後の GETVERS の回が満たされたとき。** -/
theorem leader_after_full_round {key : Bytes} {now : Nat} {l : NetLabel}
    (h : Reach netStep GetversOk (initialNet key now) n) (hl : GetversOk n l)
    (hs : netStep n l = some n') :
    (n.ctx.member.step = .prelead → n'.ctx.member.step = .leader →
        ∃ r, n'.round = some r ∧ r.Fulfilled) ∧
      ∀ env drawn reqid peer reply loc r, l = .reply env drawn reqid peer reply loc →
        n.round = some r → reqid ≠ r.reqid → n.ctx.member.step ≠ .none →
        n'.ctx.member.step = n.ctx.member.step ∧
          n'.ctx.member.roundState = n.ctx.member.roundState := by
  have hr : RoundsOk n := h.invariant (roundsOk_initial key now)
    fun hi hok hst => (netStep_rounds hi hok hst).1
  refine ⟨(netStep_rounds hr hl hs).2, ?_⟩
  rintro env drawn reqid peer reply loc r rfl hround hne hstep
  exact netStep_stale hr.1 hs hround hne hstep

/-! ## 具体的な run -/

def pairEnv : Env := ⟨0, false, some [ascii "p1", ascii "p2"], fun _ => true⟩

def sameReply (reqid : Nat) (peer : Bytes) : NetLabel :=
  .reply pairEnv 0 reqid peer (.ok (some ∅)) (.ok (some ∅))

def leadRun : List NetLabel :=
  [.callback pairEnv 0 .kickoff,
    .callback pairEnv 0 (.startElection 0 (some (ascii "B-0000000005"))),
    .callback pairEnv 0 (.listGroup 0 [ascii "B-0000000005", ascii "B-0000000007"]),
    .reply pairEnv 0 2 (ascii "p2") (.error ⟨500, "timeout"⟩) (.ok none)]

theorem leader_after_full_round_leadRun : ∃ n n',
    Reach netStep GetversOk (initialNet (ascii "B") 0) n ∧
      netStep n (sameReply 2 (ascii "p1")) = some n' ∧ n.ctx.member.step = .prelead ∧
      n'.ctx.member.step = .leader ∧ ∃ r, n'.round = some r ∧ r.Fulfilled := by
  obtain ⟨n, hn, hp, n', hn', hl⟩ : ∃ n ∈ exec netStep (initialNet (ascii "B") 0) leadRun,
      n.ctx.member.step = .prelead ∧ ∃ n' ∈ netStep n (sameReply 2 (ascii "p1")),
        n'.ctx.member.step = .leader := by
    decide +kernel
  have hreach : Reach netStep GetversOk (initialNet (ascii "B") 0) n :=
    reach_of_exec _ (by decide +kernel) hn
  have hok : GetversOk n (sameReply 2 (ascii "p1")) := trivial
  exact ⟨n, n', hreach, hn', hp, hl, (leader_after_full_round hreach hok hn').1 hp hl⟩

/-- 「古い」を PRELOST で受けた後、同じ回のまま PRELEAD に入る run -/
def outdatedRun : List NetLabel :=
  [.callback pairEnv 0 .kickoff,
    .callback pairEnv 0 (.startElection 0 (some (ascii "B-0000000005"))),
    .callback pairEnv 0 (.listGroup 0 [ascii "B-0000000005", ascii "B-0000000003"]),
    .callback pairEnv 0 (.askMaster 0 (ascii "host")),
    .reply pairEnv 0 2 (ascii "p2") (.error ⟨codePipefrom, "Local diff missed"⟩) (.ok none),
    .callback pairEnv 0 .masterChange,
    .pipeDone pairEnv 0 3,
    .callback { pairEnv with peers := none } 0 (.listGroup 0 [ascii "B-0000000005"])]

/-- **`get_peers` が失敗すると、「古い」のあった回で LEADER になりうる。** -/
theorem leader_after_outdated_reply : ∃ n n' r, Reachable netStep (initialNet (ascii "B") 0) n ∧
      netStep n (sameReply 2 (ascii "p1")) = some n' ∧ n.ctx.member.step = .prelead ∧
      n'.ctx.member.step = .leader ∧ n'.round = some r ∧ (ascii "p2", .outdated) ∈ r.replies := by
  obtain ⟨n, hn, hp, n', hn', hl, r, hr, hout⟩ :
      ∃ n ∈ exec netStep (initialNet (ascii "B") 0) outdatedRun, n.ctx.member.step = .prelead ∧
        ∃ n' ∈ netStep n (sameReply 2 (ascii "p1")), n'.ctx.member.step = .leader ∧
          ∃ r ∈ n'.round, (ascii "p2", .outdated) ∈ r.replies := by
    decide +kernel
  exact ⟨n, n', r, reachable_of_exec _ hn, hn', hp, hl, hr, hout⟩

end Redcurrant.Sqliterepo.Election
