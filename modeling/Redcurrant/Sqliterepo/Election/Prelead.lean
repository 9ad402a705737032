import Redcurrant.Sqliterepo.Election.Getvers
import Redcurrant.Sqliterepo.Election.Role

/-!
# PRELEAD の回の終わり

`member_finish_PRELEAD` は回の前から残る PIPEFROM の要求や error の数も見るので、返事がすべて OK でも LEADER になるとは
限らない。
-/

namespace Redcurrant.Sqliterepo.Election

open Infra List Member

variable {env : Env} {evt : Event} {c c' : Ctx} {m : Member} {r : Nat} {peers : List Bytes}

/-- 前の回や resync から何も残っていない member -/
structure Member.Settled (m : Member) : Prop where
  idle : m.pendingPipefrom = false
  unasked : m.requestedPipefrom = false
  errors : m.errorsGetvers ≤ 1
  concurrent : m.concurrentGetvers ≤ 1

instance (m : Member) : Decidable m.Settled :=
  decidable_of_iff (m.pendingPipefrom = false ∧ m.requestedPipefrom = false ∧
    m.errorsGetvers ≤ 1 ∧ m.concurrentGetvers ≤ 1)
    ⟨fun h => ⟨h.1, h.2.1, h.2.2.1, h.2.2.2⟩, fun h => ⟨h.idle, h.unasked, h.errors, h.concurrent⟩⟩

/-- 回 `r` への、手元の version は古くないという返事 -/
def Label.saysOk (r : Nat) (l : Label) : Prop :=
  ∃ reply loc, l.input = .endGetvers r reply loc ∧ getversVerdict reply loc = .ok

/-! ## 回を始める動き -/

theorem Member.Settled.congr {m' : Member} (h : m.Settled)
    (hp : m'.pendingPipefrom = m.pendingPipefrom) (hr : m'.requestedPipefrom = m.requestedPipefrom)
    (he : m'.errorsGetvers = m.errorsGetvers) (hc : m'.concurrentGetvers = m.concurrentGetvers) :
    m'.Settled :=
  ⟨hp.trans h.idle, hr.trans h.unasked, he ▸ h.errors, hc ▸ h.concurrent⟩

/-- `c` から `c'` への動きは `peers` への回 `r` を始めた -/
structure RoundSent (c c' : Ctx) (r : Nat) (peers : List Bytes) : Prop where
  reqid : c'.member.reqidGetvers = r
  pending : c'.member.pendingGetvers = peers.length
  settled : c'.member.Settled ↔ c.member.Settled

theorem deferGetvers_roundSent {c0 : Ctx} (h0 : getversSent c.sent = [])
    (hr : (r, peers) ∈ getversSent (deferGetvers env c).sent)
    (hset : c.member.Settled ↔ c0.member.Settled) : RoundSent c0 (deferGetvers env c) r peers := by
  unfold deferGetvers at hr ⊢
  cases hps : env.peers with
  | none =>
    rw [hps, h0] at hr
    cases hr
  | some ps =>
    rw [hps, getversSent_append, h0] at hr
    have hid : r = c.nextId + 1 ∧ peers = ps := by simpa [getversSent] using hr
    obtain ⟨rfl, rfl⟩ := hid
    refine ⟨rfl, rfl, Iff.trans ?_ hset⟩
    exact ⟨fun h => h.congr rfl rfl rfl rfl, fun h => h.congr rfl rfl rfl rfl⟩

theorem not_prelead_of_neutral (h : m.step.neutral) : m.step ≠ .prelead := by
  intro hs
  rw [hs] at h
  cases h

theorem manageList_roundSent {ids : List Int} (h0 : getversSent c.sent = [])
    (hp : (manageList env ids c).member.step = .prelead)
    (hr : (r, peers) ∈ getversSent (manageList env ids c).sent) :
    RoundSent c (manageList env ids c) r peers := by
  rcases manageList_cases env c ids with ⟨-, he⟩ | ⟨-, -, he⟩ | ⟨-, -, he | ⟨path, he⟩⟩ <;>
    rw [he] at hp
  · exact absurd hp (not_prelead_of_neutral (restartElection_neutral _ _))
  · rw [he] at hr ⊢
    refine deferGetvers_roundSent (by exact h0) hr ?_
    exact ⟨fun h => h.congr rfl rfl rfl rfl, fun h => h.congr rfl rfl rfl rfl⟩
  · exact absurd hp (not_prelead_of_neutral (becomeLeaver_neutral _ _))
  · rw [deferGetvers_step] at hp
    cases hp

theorem acts_roundSent (ha : Acts env c evt c') (h0 : getversSent c.sent = [])
    (hp : c'.member.step = .prelead) (hr : (r, peers) ∈ getversSent c'.sent) :
    RoundSent c c' r peers ∧ ∀ m, acknowledge evt m = m := by
  have hquiet : ∀ {d : Ctx}, getversSent d.sent = getversSent c.sent →
      (r, peers) ∈ getversSent d.sent → False := by
    intro d hd hm
    rw [hd, h0] at hm
    cases hm
  cases ha with
  | ignored _ | resync _ | outdatedLost _ | askUse _ => exact (hquiet rfl hr).elim
  | disconnect => cases hp
  | restart _ | restartResync _ =>
    exact absurd hp (not_prelead_of_neutral (restartElection_neutral _ _))
  | exitEarly _ | leave _ | leaveAgain _ | outdatedLead _ =>
    exact absurd hp (not_prelead_of_neutral (becomeLeaver_neutral _ _))
  | created _ _ | candidate _ =>
    exact absurd hp (not_prelead_of_neutral (becomeCandidate_neutral _ _))
  | unwatched _ _ => cases hp
  | notCreated _ => cases hp
  | ping _ => exact (hquiet (memberPing_noRound env c).sent hr).elim
  | list _ => exact ⟨manageList_roundSent h0 hp hr, fun _ => rfl⟩
  | retry _ =>
    obtain ⟨h1, h2, h3⟩ := deferGetvers_roundSent h0 hr (Iff.refl c.member.Settled)
    refine ⟨⟨h1, h2, Iff.trans ?_ h3⟩, fun _ => rfl⟩
    exact ⟨fun h => h.congr rfl rfl rfl rfl, fun h => h.congr rfl rfl rfl rfl⟩
  | @masterOk url hs =>
    exact (hquiet (finishPrelost_noRound (c := c.update (·.setMasterUrl (some url))) hs).sent hr).elim
  | @replyLost v hs _ =>
    have hs' : (c.update v.count).member.step = .prelost := (count_step _ _).trans hs
    exact (hquiet (finishPrelost_noRound hs').sent hr).elim
  | replyLead hs hv => exact (hquiet (finishPrelead_counted hs hv).sent hr).elim
  | resynced _ _ _ => cases hp
  | left _ => cases hp
  | lostResync _ => cases hp
  | forget _ => cases hp

/-! ## 遷移の終わり -/

theorem flushPipefrom_settled : (flushPipefrom c).member.Settled ↔ c.member.Settled := by
  unfold flushPipefrom
  split
  · next source hreq _ =>
    refine iff_of_false (fun h => ?_) (fun h => by rw [h.unasked] at hreq; cases hreq)
    have hp := h.idle
    unfold deferPipefrom at hp
    split at hp
    · next hpend => rw [hp] at hpend; cases hpend
    · cases hp
  · rfl

theorem flush_lead (h : c.member.step = .prelead ∨ c.member.step = .leader) :
    flushUse env (flushPipefrom c) = flushPipefrom c := by
  refine if_neg fun hc => ?_
  rw [flushPipefrom_step] at hc
  rcases h with h | h <;> rw [h] at hc <;> cases hc.2

theorem transition_roundSent (h0 : c.sent = []) (hp : (transition env evt c).member.step = .prelead)
    (hr : (r, peers) ∈ getversSent (transition env evt c).sent) :
    RoundSent c (transition env evt c) r peers := by
  have htail : NoRound (transition' env evt c) (transition env evt c) := flush_noRound env _
  obtain ⟨hp', hround⟩ := htail.lead hp
  rw [htail.sent] at hr
  have hacts := transition'_acts env evt c
  obtain ⟨hs, hack⟩ := acts_roundSent hacts (by simp [Ctx.update, h0, getversSent]) hp' hr
  have hid : c.update (acknowledge evt) = c := by rw [Ctx.update, hack]
  rw [hid] at hs
  simp only [roundState, Prod.mk.injEq] at hround
  refine ⟨hround.1.trans hs.reqid, hround.2.1.trans hs.pending, Iff.trans ?_ hs.settled⟩
  rw [transition, flush_lead (.inl hp')]
  exact flushPipefrom_settled

/-- **回を始めた step の後の member。** -/
theorem memberStep_roundSent {l : Label} (hs : memberStep c l = some c')
    (hp : c'.member.step = .prelead) (hr : .getvers r peers ∈ c'.sent) :
    RoundSent c c' r peers := by
  have hr' : (r, peers) ∈ getversSent c'.sent := mem_filterMap.mpr ⟨_, hr, rfl⟩
  unfold memberStep handle at hs
  split at hs
  · cases hs
  · cases hs
    cases hr
  cases hs
  obtain ⟨h1, h2, h3⟩ := transition_roundSent rfl hp hr'
  exact ⟨h1, h2, h3⟩

/-! ## OK の返事 -/

/-- PRELEAD で、回 `r` の返事をあと `k` 個待っている -/
structure Awaits (m : Member) (r k : Nat) : Prop where
  step : m.step = .prelead
  reqid : m.reqidGetvers = r
  pending : m.pendingGetvers = k

theorem countGetvers_settled : m.countGetvers.Settled ↔ m.Settled := by
  unfold countGetvers
  split
  · exact ⟨fun h => h.congr rfl rfl rfl rfl, fun h => h.congr rfl rfl rfl rfl⟩
  · rfl

theorem transition'_ok (h : c.member.step = .prelead) :
    transition' env (.getversOk c.member.reqidGetvers) c =
      finishPrelead env (c.update countGetvers) := by
  simp [transition', dispatch, acknowledge, onPrelead, Ctx.update, h]

theorem transition_ok_more {k : Nat} (h : Awaits c.member r (k + 2)) :
    Awaits (transition env (.getversOk r) c).member r (k + 1) ∧
      ((transition env (.getversOk r) c).member.Settled ↔ c.member.Settled) := by
  obtain ⟨hs, rfl, hk⟩ := h
  have hcount : c.member.countGetvers =
      { c.member with pendingGetvers := k + 1, reqidGetvers := c.member.reqidGetvers } := by
    simp [countGetvers, hk]
  have hfinish : finishPrelead env (c.update countGetvers) = c.update countGetvers := by
    refine if_pos ?_
    simp [Ctx.update, hcount, hasAction]
  have hlead : (c.update countGetvers).member.step = .prelead := by
    rw [Ctx.update, hcount]
    exact hs
  rw [transition, transition'_ok hs, hfinish, flush_lead (.inl hlead)]
  refine ⟨?_, flushPipefrom_settled.trans countGetvers_settled⟩
  have hround := ((flushPipefrom_noRound (c.update countGetvers)).lead
    ((flushPipefrom_step _).trans hlead)).2
  simp only [roundState, Prod.mk.injEq] at hround
  refine ⟨(flushPipefrom_step _).trans hlead, hround.1.trans ?_, hround.2.1.trans ?_⟩
  · rw [Ctx.update, hcount]
  · rw [Ctx.update, hcount]

theorem transition_ok_last (h : Awaits c.member r 1) :
    (transition env (.getversOk r) c).member.step = .leader ↔ c.member.Settled := by
  obtain ⟨hs, rfl, hk⟩ := h
  rw [transition, transition'_ok hs, ← countGetvers_settled]
  generalize hc1 : c.update countGetvers = c1
  have hstep : c1.member.step = .prelead := by
    rw [← hc1, Ctx.update, countGetvers, if_pos (by omega)]
    exact hs
  have hpend : c1.member.pendingGetvers = 0 := by
    rw [← hc1, Ctx.update, countGetvers]
    simp [hk]
  have hmem : c.member.countGetvers = c1.member := by rw [← hc1]; rfl
  rw [hmem]
  have hleave : ∀ d : Ctx, (flushUse env (flushPipefrom (becomeLeaver env d))).member.step ≠
      .leader := by
    intro d hl
    have hno := flush_noRound env (becomeLeaver env d)
    rcases becomeLeaver_step env d with hb | hb <;> rw [hno.leader hl] at hb <;> cases hb
  unfold finishPrelead
  split
  · -- PIPEFROM が残っている
    next ha =>
    refine iff_of_false (fun hl => ?_) (fun hset => ?_)
    · rw [flush_lead (.inl hstep), flushPipefrom_step, hstep] at hl
      cases hl
    · simp [hasAction, hpend, hset.idle, hset.unasked] at ha
  · next ha =>
    have hpipe : c1.member.pendingPipefrom = false ∧ c1.member.requestedPipefrom = false := by
      simpa [hasAction, hpend] using ha
    dsimp only
    split
    · next he => exact iff_of_false (hleave _) fun hset => absurd hset.errors (by omega)
    split
    · next hcc => exact iff_of_false (hleave _) fun hset => absurd hset.concurrent (by omega)
    refine iff_of_true ?_ ⟨hpipe.1, hpipe.2, by omega, by omega⟩
    rw [flush_lead (.inr rfl), flushPipefrom_step]
    rfl

theorem memberStep_saysOk {l : Label} (hl : l.saysOk r) : memberStep c l =
    some (transition l.env (.getversOk r) { c with nextId := c.nextId + l.drawn, sent := [] }) := by
  obtain ⟨reply, loc, hin, hv⟩ := hl
  simp [memberStep, handle, hin, Input.outcome, hv, Verdict.event]

/-- **待つ返事がすべて OK なら、最後に LEADER になるのは何も残っていないとき。** -/
theorem exec_saysOk : ∀ (ls : List Label) {c : Ctx}, ls ≠ [] → (∀ l ∈ ls, l.saysOk r) →
    Awaits c.member r ls.length →
    ∃ c', exec memberStep c ls = some c' ∧ (c'.member.step = .leader ↔ c.member.Settled)
  | [], _, hne, _, _ => absurd rfl hne
  | [l], c, _, hok, hw => by
    refine ⟨_, by rw [exec, memberStep_saysOk (hok l mem_cons_self)]; rfl, ?_⟩
    exact transition_ok_last ⟨hw.step, hw.reqid, hw.pending⟩
  | l :: l' :: ls, c, _, hok, hw => by
    let c0 : Ctx := { c with nextId := c.nextId + l.drawn, sent := [] }
    obtain ⟨hnext, hset⟩ : Awaits (transition l.env (.getversOk r) c0).member r (ls.length + 1) ∧
        ((transition l.env (.getversOk r) c0).member.Settled ↔ c0.member.Settled) :=
      transition_ok_more ⟨hw.step, hw.reqid, hw.pending⟩
    obtain ⟨c', hexec, hiff⟩ := exec_saysOk (l' :: ls) (cons_ne_nil _ _)
      (fun x hx => hok x (mem_cons_of_mem _ hx)) hnext
    refine ⟨c', ?_, hiff.trans hset⟩
    rw [exec, memberStep_saysOk (hok l mem_cons_self)]
    exact hexec

/-- **PRELEAD の GETVERS の回の返事がすべて OK なら、最後の返事で LEADER になるのは、始める前に何も残っていなかったときに
限る。** -/
theorem prelead_round_iff {l : Label} (hs : memberStep c l = some c')
    (hp : c'.member.step = .prelead) (hr : .getvers r peers ∈ c'.sent) (hne : peers ≠ [])
    (replies : List Label) (hlen : replies.length = peers.length)
    (hok : ∀ x ∈ replies, x.saysOk r) :
    ∃ c'', exec memberStep c' replies = some c'' ∧
      (c''.member.step = .leader ↔ c.member.Settled) := by
  have hsent := memberStep_roundSent hs hp hr
  have hne' : replies ≠ [] := by
    rintro rfl
    exact hne (length_eq_zero_iff.mp hlen.symm)
  obtain ⟨c'', hexec, hiff⟩ := exec_saysOk replies hne' hok
    ⟨hp, hsent.reqid, hsent.pending.trans hlen.symm⟩
  exact ⟨c'', hexec, hiff.trans hsent.settled⟩

/-! ## 具体的な run -/

def loneEnv (now : Nat) : Env := ⟨now, false, some [ascii "peer"], fun _ => true⟩

/-- PRELEAD に入り、40 秒たって回をやり直す run。途中に `inputs` を受ける。 -/
def staleRun (inputs : List Input) : List Label :=
  (Input.kickoff :: .startElection 0 (some (ascii "B-0000000005")) ::
    (inputs ++ [.listGroup 0 [ascii "B-0000000005"]])).map fun i => ⟨loneEnv 0, i, 0⟩

def retryLabel : Label := ⟨loneEnv 40000000, .kickoff, 0⟩

def okLabel (r : Nat) : Label := ⟨loneEnv 40000000, .endGetvers r (.ok (some ∅)) (.ok (some ∅)), 0⟩

theorem okLabel_saysOk (r : Nat) : (okLabel r).saysOk r := ⟨_, _, rfl, by decide +kernel⟩

theorem prelead_round_iff_staleRun : ∃ c c' c'',
    Reachable memberStep (initialCtx (ascii "B") 0) c ∧ c.member.step = .prelead ∧
      memberStep c retryLabel = some c' ∧ .getvers 3 [ascii "peer"] ∈ c'.sent ∧
      exec memberStep c' [okLabel 3] = some c'' ∧ c''.member.step = .leader := by
  obtain ⟨c, hc, hstep, hset, c', hc', hstep', hsent⟩ :
      ∃ c ∈ exec memberStep (initialCtx (ascii "B") 0) (staleRun []), c.member.step = .prelead ∧
        c.member.Settled ∧ ∃ c' ∈ memberStep c retryLabel, c'.member.step = .prelead ∧
          .getvers 3 [ascii "peer"] ∈ c'.sent := by
    decide +kernel
  obtain ⟨c'', hc'', hiff⟩ := prelead_round_iff hc' hstep' hsent (by simp) [okLabel 3] rfl
    (by simpa using okLabel_saysOk 3)
  exact ⟨c, c', c'', reachable_of_exec _ hc, hstep, hc', hsent, hc'', hiff.mpr hset⟩

/-- **CANDOK で resync を求められた member は、OK だけでは LEADER になれない。** -/
theorem prelead_blocked_by_resync : ∃ c c' c'',
    Reachable memberStep (initialCtx (ascii "B") 0) c ∧ c.member.step = .prelead ∧
      memberStep c retryLabel = some c' ∧ .getvers 3 [ascii "peer"] ∈ c'.sent ∧
      (okLabel 3).saysOk 3 ∧ exec memberStep c' [okLabel 3] = some c'' ∧
      c''.member.step = .prelead := by
  obtain ⟨c, hc, hstep, c', hc', hsent, c'', hc'', hstep''⟩ :
      ∃ c ∈ exec memberStep (initialCtx (ascii "B") 0) (staleRun [.resync]),
        c.member.step = .prelead ∧ ∃ c' ∈ memberStep c retryLabel,
          .getvers 3 [ascii "peer"] ∈ c'.sent ∧ ∃ c'' ∈ exec memberStep c' [okLabel 3],
            c''.member.step = .prelead := by
    decide +kernel
  exact ⟨c, c', c'', reachable_of_exec _ hc, hstep, hc', hsent, okLabel_saysOk 3, hc'', hstep''⟩

end Redcurrant.Sqliterepo.Election
