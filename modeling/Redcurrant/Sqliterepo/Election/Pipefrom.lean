import Redcurrant.Sqliterepo.Election.Network

/-!
# LOST になる条件と PIPEFROM

`member_reset_pending` は待っている PIPEFROM を忘れ、`on_end_PIPEFROM` は返事を区別しない
（`older_answer_ends_pipefrom`）。
-/

namespace Redcurrant.Sqliterepo.Election

open Infra Member Ctx

variable {env : Env} {evt : Event} {c c' : Ctx} {n n' : Net} {m m' : Member}
variable {pipes : List Nat} {last : Option Nat}

/-- 他の member を master とする状態 -/
def Step.follows : Step → Bool
  | .prelost | .lost => true
  | _ => false

/-- 返事を待っている PIPEFROM と、member の記録の対応 -/
structure PipeOk (pipes : List Nat) (last : Option Nat) (m : Member) : Prop where
  pending : m.pendingPipefrom = true → pipes = [m.reqidPipefrom] ∧ last = some m.reqidPipefrom
  idle : m.step.follows = true → m.pendingPipefrom = false → pipes = []
  url : m.masterUrl.isSome → m.step.follows = true

/-- 対応に関わる field -/
def Member.pipeState (m : Member) : Bool × Nat × Step × Option Bytes :=
  (m.pendingPipefrom, m.reqidPipefrom, m.step, m.masterUrl)

theorem PipeOk.congr (h : PipeOk pipes last m) (he : m'.pipeState = m.pipeState) :
    PipeOk pipes last m' := by
  simp only [pipeState, Prod.mk.injEq] at he
  obtain ⟨h1, h2, h3, h4⟩ := he
  exact ⟨by rw [h1, h2]; exact h.pending, by rw [h1, h3]; exact h.idle, by rw [h3, h4]; exact h.url⟩

theorem pipeOk_of_reset (hp : m.pendingPipefrom = false) (hs : m.step.follows = false)
    (hu : m.masterUrl = none) : PipeOk pipes last m :=
  ⟨by simp [hp], by simp [hs], by simp [hu]⟩

theorem PipeOk.unfollow (h : PipeOk pipes last m) (hp : m'.pendingPipefrom = m.pendingPipefrom)
    (hr : m'.reqidPipefrom = m.reqidPipefrom) (hs : m'.step.follows = false)
    (hu : m'.masterUrl = none) : PipeOk pipes last m' :=
  ⟨by rw [hp, hr]; exact h.pending, by simp [hs], by simp [hu]⟩

theorem masterUrl_none (h : PipeOk pipes last m) (hs : m.step.follows = false) :
    m.masterUrl = none := by
  cases hm : m.masterUrl with
  | none => rfl
  | some u =>
    have := h.url (by simp [hm])
    rw [hs] at this
    cases this

/-! ## PIPEFROM を出さない動き -/

/-- PIPEFROM を出さず、LOST になるなら待つものが無い動き -/
structure Keeps (pipes : List Nat) (last : Option Nat) (c c' : Ctx) : Prop where
  sent : pipesSent c'.sent = pipesSent c.sent
  ok : PipeOk pipes last c'.member
  lost : c'.member.step = .lost →
    c.member.step = .lost ∨ (pipes = [] ∧ c'.member.requestedPipefrom = false)

section

variable (h : PipeOk pipes last c.member)
include h

theorem Keeps.refl : Keeps pipes last c c := ⟨rfl, h, .inl⟩

theorem keeps_update {f : Member → Member} (he : (f c.member).pipeState = c.member.pipeState) :
    Keeps pipes last c (c.update f) := by
  refine ⟨rfl, h.congr he, fun hs => .inl ?_⟩
  simp only [pipeState, Prod.mk.injEq] at he
  exact he.2.2.1 ▸ hs

theorem keeps_deferUse : Keeps pipes last c (deferUse env c).2 := by
  unfold deferUse
  split
  · exact .refl h
  split
  · exact .refl h
  · exact ⟨by simp [pipesSent], h.congr rfl, .inl⟩

theorem keeps_deferGetvers : Keeps pipes last c (deferGetvers env c) := by
  unfold deferGetvers
  split
  · exact .refl h
  · exact ⟨by simp [pipesSent], h.congr rfl, .inl⟩

end

theorem Keeps.trans {c'' : Ctx} (h : Keeps pipes last c c') (hne : c'.member.step ≠ .lost)
    (h' : Keeps pipes last c' c'') : Keeps pipes last c c'' := by
  refine ⟨h'.sent.trans h.sent, h'.ok, fun hs => ?_⟩
  rcases h'.lost hs with hl | hl
  · exact absurd hl hne
  · exact .inr hl

theorem keeps_becomeLeaver (pipes : List Nat) (last : Option Nat) (env : Env) (c : Ctx) :
    Keeps pipes last c (becomeLeaver env c) := by
  unfold becomeLeaver
  split
  · exact ⟨by simp [send, update, pipesSent], pipeOk_of_reset rfl rfl rfl, fun h => by cases h⟩
  · exact ⟨rfl, pipeOk_of_reset rfl rfl rfl, fun h => by cases h⟩

section

variable (h : PipeOk pipes last c.member)
include h

theorem keeps_becomeCandidate : Keeps pipes last c (becomeCandidate env c) := by
  unfold becomeCandidate
  split
  · exact ⟨by simp [send, update, pipesSent], h.unfollow rfl rfl rfl rfl, fun h => by cases h⟩
  · exact ⟨rfl, h.unfollow rfl rfl rfl rfl, fun h => by cases h⟩

omit h in
theorem keeps_reset {s : Step} (hs : s.follows = false) :
    Keeps pipes last c ((c.update reset).setStatus env s) := by
  refine ⟨rfl, pipeOk_of_reset rfl hs rfl, fun h => ?_⟩
  rw [show s = .lost from h] at hs
  cases hs

omit h in
theorem keeps_restartElection (pipes : List Nat) (last : Option Nat) (env : Env) (c : Ctx) :
    Keeps pipes last c (restartElection env c) := by
  have h1 : Keeps pipes last c (candreqCtx env c) := by
    refine Keeps.trans ?_ ?_ (keeps_deferUse ?_)
    · exact ⟨rfl, pipeOk_of_reset rfl rfl rfl, fun h => by cases h⟩
    · simp [Ctx.update, Member.setStatus]
    · exact pipeOk_of_reset rfl rfl rfl
  rcases restartElection_cases env c with ⟨-, he⟩ | he | he | he <;> rw [he]
  · exact keeps_becomeLeaver pipes last env c
  · exact keeps_reset rfl
  · exact ⟨h1.sent, h1.ok.unfollow rfl rfl rfl (candreqCtx_masterUrl env c), fun h => by cases h⟩
  · refine ⟨?_, h1.ok.congr rfl, fun h => ?_⟩
    · simpa [Ctx.send, pipesSent] using h1.sent
    · simp [Ctx.send] at h

theorem keeps_memberPing : Keeps pipes last c (memberPing env c) := by
  have hu : Keeps pipes last c (deferUse env c).2 := keeps_deferUse h
  rcases memberPing_cases env c with he | he | he <;> rw [he]
  · exact .refl h
  · exact hu
  have hl := keeps_becomeLeaver pipes last env (deferUse env c).2
  refine ⟨hl.sent.trans hu.sent, hl.ok, fun hs => ?_⟩
  rcases becomeLeaver_step env (deferUse env c).2 with h | h <;> rw [h] at hs <;> cases hs

omit h in
theorem pipeState_resync (m : Member) : m.resyncIfNotPending.pipeState = m.pipeState := by
  unfold resyncIfNotPending
  split <;> rfl

omit h in
theorem pipeState_count (v : Verdict) (m : Member) : (v.count m).pipeState = m.pipeState := by
  cases v <;> · simp only [Verdict.count, countGetvers]; split <;> rfl

theorem keeps_setLost (hs : c.member.step = .prelost) (ha : c.member.hasAction = false) :
    Keeps pipes last c (c.setStatus env .lost) := by
  simp only [hasAction, Bool.or_eq_false_iff] at ha
  have hnil : pipes = [] := h.idle (by rw [hs]; rfl) ha.1.2
  refine ⟨rfl, ⟨?_, fun _ _ => hnil, fun _ => rfl⟩, fun _ => .inr ⟨hnil, ha.2⟩⟩
  exact h.pending

theorem keeps_finishPrelost (hs : c.member.step = .prelost) :
    Keeps pipes last c (finishPrelost env c) := by
  have h1 : Keeps pipes last c c.clearErrors := keeps_update h rfl
  have hst : c.clearErrors.member.step = .prelost := hs
  have hne : c.clearErrors.member.step ≠ .lost := by simp [hst]
  rcases finishPrelost_cases env c with he | he | he | he | ⟨ha, -, he⟩ <;> rw [he]
  · exact .refl h
  · exact h1.trans hne (keeps_becomeLeaver pipes last env _)
  · exact h1.trans hne (keeps_update h1.ok (pipeState_resync _))
  · exact h1
  · exact h1.trans hne (keeps_setLost h1.ok hst ha)

theorem keeps_finishPrelead (hs : c.member.step = .prelead) :
    Keeps pipes last c (finishPrelead env c) := by
  have hu : c.member.masterUrl = none := masterUrl_none h (by simp [hs, Step.follows])
  have h1 : Keeps pipes last c c.clearErrors := keeps_update h rfl
  have hst : c.clearErrors.member.step = .prelead := hs
  rcases finishPrelead_cases env c with he | he | he <;> rw [he]
  · exact .refl h
  · exact h1.trans (by simp [hst]) (keeps_becomeLeaver pipes last env _)
  · exact ⟨h1.sent, h1.ok.unfollow rfl rfl rfl hu, fun h => by cases h⟩

/-- 一覧を受け取るときに、待っている PIPEFROM が忘れられていない -/
def Remembered (pipes : List Nat) (m : Member) : Prop :=
  ∀ id ∈ pipes, m.pendingPipefrom = true ∧ m.reqidPipefrom = id

theorem keeps_manageList {ids : List Int} (hs : c.member.step = .candok)
    (hr : Remembered pipes c.member) :
    Keeps pipes last c (manageList env ids c) := by
  have hu : c.member.masterUrl = none := masterUrl_none h (by simp [hs, Step.follows])
  have hidle : c.member.pendingPipefrom = false → pipes = [] := by
    intro hp
    refine List.eq_nil_iff_forall_not_mem.mpr fun id hid => ?_
    have := (hr id hid).1
    rw [hp] at this
    cases this
  have h2 : Keeps pipes last c (prelostCtx env ids c) :=
    ⟨rfl, ⟨h.pending, fun _ hp => hidle hp, fun _ => rfl⟩, fun h => by cases h⟩
  have hne2 : (prelostCtx env ids c).member.step ≠ .lost := by
    simp [prelostCtx, Ctx.update, Member.setStatus]
  rcases manageList_cases env c ids with ⟨-, he⟩ | ⟨-, -, he⟩ | ⟨-, -, he | ⟨path, he⟩⟩ <;> rw [he]
  · have h1 : Keeps pipes last c (c.setStatus env .candok) :=
      ⟨rfl, h.unfollow rfl rfl rfl hu, fun h => by cases h⟩
    refine h1.trans ?_ (keeps_restartElection pipes last env _)
    simp [Ctx.setStatus, Ctx.update, Member.setStatus]
  · generalize hc1 : Ctx.update _ _ = c1
    have h1 : Keeps pipes last c c1 := by
      subst hc1
      refine ⟨rfl, h.unfollow rfl rfl rfl ?_, fun h => by cases h⟩
      simp [Ctx.setStatus, Ctx.update, Member.setStatus, Member.setMasterId, hu]
    have hne : c1.member.step ≠ .lost := by subst hc1; simp [Ctx.update, Member.setStatus]
    exact h1.trans hne (keeps_deferGetvers h1.ok)
  · exact h2.trans hne2 (keeps_becomeLeaver pipes last env _)
  · have h3 : Keeps pipes last (prelostCtx env ids c) ((prelostCtx env ids c).send (.ask path)) :=
      ⟨by simp [Ctx.send, pipesSent], h2.ok.congr rfl, .inl⟩
    exact (h2.trans hne2 h3).trans hne2 (keeps_deferGetvers h3.ok)

/-! ## 一つの遷移 -/

/-- 一覧を受け取る event では PIPEFROM が忘れられていない -/
def ListRemembers (pipes : List Nat) (m : Member) : Event → Prop
  | .listOk _ => m.step = .candok → Remembered pipes m
  | _ => True

omit h in
theorem acts_keeps (ha : Acts env c evt c') (h : PipeOk pipes last c.member)
    (hr : ListRemembers pipes c.member evt) : Keeps pipes last c c' := by
  cases ha with
  | ignored _ => exact .refl h
  | disconnect | left _ | forget _ => exact keeps_reset rfl
  | restart _ => exact keeps_restartElection pipes last env c
  | restartResync hs =>
    have h1 : Keeps pipes last c (c.update resyncIfNotPending) :=
      keeps_update h (pipeState_resync _)
    have hst : (c.update resyncIfNotPending).member.step = c.member.step :=
      congrArg (·.2.2.1) (pipeState_resync c.member)
    exact h1.trans (by simp [hst, hs]) (keeps_restartElection pipes last env _)
  | exitEarly _ | leave _ | leaveAgain _ => exact keeps_becomeLeaver pipes last env c
  | @created id hs _ =>
    have h1 : Keeps pipes last c
        ((c.update (·.setId id)).send (.watch (c.member.setId id).fullpath)) :=
      ⟨by simp [send, update, pipesSent], h.congr rfl, .inl⟩
    exact h1.trans (by simp [send, update, setId, hs]) (keeps_becomeCandidate h1.ok)
  | unwatched hs _ | notCreated hs =>
    have hu : c.member.masterUrl = none := masterUrl_none h (by simp [hs, Step.follows])
    exact ⟨rfl, h.unfollow rfl rfl rfl hu, fun h => by cases h⟩
  | ping _ => exact keeps_memberPing h
  | resync _ => exact keeps_update h (pipeState_resync _)
  | list hs => exact keeps_manageList h hs (hr hs)
  | candidate _ => exact keeps_becomeCandidate h
  | retry hs =>
    have h1 : Keeps pipes last c (deferGetvers env c) := keeps_deferGetvers h
    refine h1.trans ?_ (keeps_update h1.ok rfl)
    rcases hs with hs | hs <;> simp [hs]
  | @masterOk url hs =>
    have h1 : Keeps pipes last c (c.update (·.setMasterUrl (some url))) := by
      refine ⟨rfl, ⟨h.pending, h.idle, fun _ => ?_⟩, .inl⟩
      simp [update, setMasterUrl, hs, Step.follows]
    exact h1.trans (by simp [update, setMasterUrl, hs]) (keeps_finishPrelost h1.ok hs)
  | @replyLost v hs _ =>
    have h1 : Keeps pipes last c (c.update v.count) := keeps_update h (pipeState_count v _)
    have hst : (c.update v.count).member.step = .prelost := (count_step v _).trans hs
    exact h1.trans (by simp [hst]) (keeps_finishPrelost h1.ok hst)
  | outdatedLost hs =>
    exact keeps_update h ((pipeState_resync _).trans (pipeState_count .outdated _))
  | @replyLead v hs _ =>
    have h1 : Keeps pipes last c (c.update v.count) := keeps_update h (pipeState_count v _)
    have hst : (c.update v.count).member.step = .prelead := (count_step v _).trans hs
    exact h1.trans (by simp [hst]) (keeps_finishPrelead h1.ok hst)
  | outdatedLead hs =>
    have h1 : Keeps pipes last c (c.update countGetvers) :=
      keeps_update h (pipeState_count .outdated _)
    have hst : (c.update countGetvers).member.step = .prelead := (count_step .outdated _).trans hs
    exact h1.trans (by simp [hst]) (keeps_becomeLeaver pipes last env _)
  | resynced hs ha _ => exact keeps_setLost h hs ha
  | askUse _ => exact keeps_update h rfl
  | lostResync hs =>
    refine ⟨rfl, ⟨h.pending, fun _ hp => h.idle (by simp [hs, Step.follows]) hp, fun _ => rfl⟩,
      fun h => by cases h⟩

theorem flushPipefrom_pipes : (pipesSent (flushPipefrom c).sent = pipesSent c.sent ∧
      PipeOk pipes last (flushPipefrom c).member) ∨
    ∃ id, pipesSent (flushPipefrom c).sent = pipesSent c.sent ++ [id] ∧ pipes = [] ∧
      PipeOk [id] (some id) (flushPipefrom c).member ∧ c.member.requestedPipefrom = true := by
  unfold flushPipefrom
  split
  · next source hreq hurl =>
    have hf : c.member.step.follows = true := h.url (by simp [hurl])
    unfold deferPipefrom
    split
    · exact .inl ⟨rfl, h⟩
    · next hp =>
      refine .inr ⟨c.nextId + 1, by simp [pipesSent], h.idle hf (Bool.eq_false_iff.mpr hp),
        ⟨fun _ => ⟨rfl, rfl⟩, fun _ hf => (by cases hf), fun _ => hf⟩, hreq⟩
  · exact .inl ⟨rfl, h⟩

end

theorem flushUse_keeps (env : Env) (h : PipeOk pipes last c.member) : Keeps pipes last c (flushUse env c) := by
  unfold flushUse
  split
  · exact keeps_restartElection pipes last env c
  · exact .refl h

theorem flushUse_lost (h : (flushUse env c).member.step = .lost) : c.member.step = .lost := by
  unfold flushUse at h
  split at h
  · next hc =>
    rcases (keeps_restartElection [0] none env c).lost h with hl | hl
    · exact hl
    · cases hl.1
  · exact h

/-- **遷移で、PIPEFROM は高々一つ出て、対応は保たれる。** -/
theorem transition_pipes (env : Env) (h : PipeOk pipes last (acknowledge evt c.member))
    (hr : ListRemembers pipes (acknowledge evt c.member) evt) (hsent : pipesSent c.sent = []) :
    ((pipesSent (transition env evt c).sent = [] ∧
        PipeOk pipes last (transition env evt c).member) ∨
      ∃ id, pipesSent (transition env evt c).sent = [id] ∧ pipes = [] ∧
        PipeOk [id] (some id) (transition env evt c).member) ∧
    ((transition env evt c).member.step = .lost →
      c.member.step = .lost ∨ (pipes = [] ∧ pipesSent (transition env evt c).sent = [])) := by
  have hk : Keeps pipes last (c.update (acknowledge evt)) (transition' env evt c) :=
    acts_keeps (transition'_acts env evt c) h hr
  have hs1 : pipesSent (transition' env evt c).sent = [] := hk.sent.trans hsent
  have hp := flushPipefrom_pipes hk.ok
  rw [hs1] at hp
  refine ⟨?_, fun hl => ?_⟩
  · rcases hp with ⟨hs2, hok⟩ | ⟨id, hs2, hnil, hok, -⟩
    · have hu := flushUse_keeps env hok
      exact .inl ⟨hu.sent.trans hs2, hu.ok⟩
    · have hu := flushUse_keeps env hok
      exact .inr ⟨id, hu.sent.trans hs2, hnil, hu.ok⟩
  have hl1 := flushUse_lost hl
  rw [flushPipefrom_step] at hl1
  rcases hk.lost hl1 with hl2 | ⟨hnil, hreq⟩
  · exact .inl ((acknowledge_step evt c.member).symm.trans hl2)
  refine .inr ⟨hnil, ?_⟩
  rcases hp with ⟨hs2, hok⟩ | ⟨id, -, -, -, hreq'⟩
  · exact (flushUse_keeps env hok).sent.trans hs2
  · rw [hreq] at hreq'; cases hreq'

/-! ## 系の不変条件 -/

/-- 系の、待っている PIPEFROM と member の記録の対応 -/
def PipesOk (n : Net) : Prop := PipeOk n.pipes n.lastPipe n.ctx.member

/-- 一覧が届いた callback -/
def Input.isListing : Input → Bool
  | .listGroup zrc _ => zrc == 0
  | _ => false

/-- 一覧を受け取る callback で待つ PIPEFROM は member が覚えている -/
def PipefromOk (n : Net) : NetLabel → Prop
  | .callback _ _ input =>
    input.isListing = true → n.ctx.member.step = .candok → Remembered n.pipes n.ctx.member
  | _ => True

instance : Decidable (Remembered pipes m) := inferInstanceAs (Decidable (∀ id ∈ pipes, _ ∧ _))

instance : ∀ n l, Decidable (PipefromOk n l)
  | n, .callback _ _ input =>
    inferInstanceAs (Decidable (input.isListing = true → n.ctx.member.step = .candok →
      Remembered n.pipes n.ctx.member))
  | _, .reply .. => .isTrue trivial
  | _, .pipeDone .. => .isTrue trivial

/-- 対応を保ち、LOST になるなら待つものが無い -/
def PipesStep (n n' : Net) : Prop :=
  PipesOk n' ∧ (n'.ctx.member.step = .lost → n.ctx.member.step = .lost ∨ n'.pipes = [])

theorem after_pipes (env : Env) (drawn : Nat)
    (h : PipeOk n.pipes n.lastPipe (acknowledge evt n.ctx.member))
    (hr : ListRemembers n.pipes (acknowledge evt n.ctx.member) evt) :
    PipesStep n (n.after (transition env evt (n.start drawn))) := by
  obtain ⟨hcase, hlost⟩ := transition_pipes env (c := n.start drawn) h hr rfl
  generalize transition env evt (n.start drawn) = c' at hcase hlost
  obtain ⟨hp, hl⟩ := foldl_absorb_pipes c'.sent { n with ctx := c' }
  have hp : (n.after c').pipes = n.pipes ++ pipesSent c'.sent := hp
  have hl : (n.after c').lastPipe = ((pipesSent c'.sent).getLast?).or n.lastPipe := hl
  refine ⟨?_, fun hs => ?_⟩
  · unfold PipesOk
    rcases hcase with ⟨hs, hok⟩ | ⟨id, hs, hnil, hok⟩
    · rw [hp, hl, hs, after_ctx, List.append_nil]
      exact hok
    · rw [hp, hl, hs, after_ctx, hnil]
      exact hok
  · rw [after_ctx] at hs
    rcases hlost hs with h | ⟨hnil, hs'⟩
    · exact .inl h
    · exact .inr (by rw [hp, hnil, hs']; rfl)

theorem pipeOk_answered {id : Nat} (h : PipesOk n) (hin : id ∈ n.pipes) :
    PipeOk (n.pipes.erase id) n.lastPipe
      (acknowledge (.resyncDone n.ctx.member.reqidPipefrom) n.ctx.member) := by
  simp only [acknowledge, if_true]
  refine ⟨fun hp => (by cases hp), fun hf _ => ?_, h.url⟩
  cases hp : n.ctx.member.pendingPipefrom with
  | true =>
    have hpipes := (h.pending hp).1
    rw [hpipes] at hin ⊢
    rw [List.mem_singleton.mp hin]
    simp
  | false =>
    rw [h.idle hf hp] at hin
    cases hin

theorem pipeOk_acknowledge (h : PipeOk pipes last m) (he : ∀ r, evt ≠ .resyncDone r) :
    PipeOk pipes last (acknowledge evt m) := by
  refine h.congr ?_
  unfold acknowledge
  split
  · dsimp only
    split <;> split <;> rfl
  · next r => exact absurd rfl (he r)
  · rfl

theorem netStep_pipes {l : NetLabel} (h : PipesOk n) (hok : PipefromOk n l)
    (hs : netStep n l = some n') : PipesStep n n' := by
  cases l with
  | callback env drawn input =>
    obtain ⟨-, hpipe, hrun⟩ := netStep_callback hs
    rcases run_cases hrun with ⟨-, rfl⟩ | ⟨evt, ho, rfl⟩
    · -- 無視された callback は対応を変えない
      exact ⟨h, .inl⟩
    have hr : ListRemembers n.pipes (acknowledge evt n.ctx.member) evt := by
      cases outcome_raises ho with
      | listOk => exact hok rfl
      | @endGetvers r reply loc => cases getversVerdict reply loc <;> trivial
      | _ => trivial
    exact after_pipes env drawn (pipeOk_acknowledge h (outcome_ne_resyncDone ho hpipe)) hr
  | reply env drawn reqid peer reply loc =>
    simp only [netStep] at hs
    split at hs
    · rcases run_cases hs with ⟨ho, -⟩ | ⟨evt, ho, rfl⟩
      · cases ho
      have hr : ListRemembers n.pipes (acknowledge evt n.ctx.member) evt := by
        cases ho
        cases getversVerdict reply loc <;> trivial
      have hne := outcome_ne_resyncDone ho (by simp)
      exact after_pipes env (n := n.record reqid peer (getversVerdict reply loc)) drawn
        (pipeOk_acknowledge h hne) hr
    · cases hs
  | pipeDone env drawn id =>
    simp only [netStep] at hs
    split at hs
    · next hin =>
      rcases run_cases hs with ⟨ho, -⟩ | ⟨evt, ho, rfl⟩
      · cases ho
      cases ho
      exact after_pipes env (n := { n with pipes := n.pipes.erase id }) drawn
        (pipeOk_answered h hin) trivial
    · cases hs

theorem pipesOk_initial (key : Bytes) (now : Nat) : PipesOk (initialNet key now) :=
  pipeOk_of_reset rfl rfl rfl

/-- **待っている PIPEFROM を忘れたまま一覧を受け取らない run では、LOST に入るとき最後の PIPEFROM の返事は来ており、
古い返事が今のものを終わらせることもない。** -/
theorem lost_without_pending_pipefrom {key : Bytes} {now : Nat} {l : NetLabel}
    (h : Reach netStep PipefromOk (initialNet key now) n) (hl : PipefromOk n l)
    (hs : netStep n l = some n') :
    (n.ctx.member.step ≠ .lost → n'.ctx.member.step = .lost →
        ∀ id, n'.lastPipe = some id → id ∉ n'.pipes) ∧
      ∀ env drawn id, l = .pipeDone env drawn id → n.lastPipe ≠ some id →
        n.ctx.member.pendingPipefrom = true → n'.ctx.member.pendingPipefrom = true := by
  have hp : PipesOk n := h.invariant (pipesOk_initial key now)
    fun hi hok hst => (netStep_pipes hi hok hst).1
  refine ⟨fun hne hlost id _ hin => ?_, ?_⟩
  · rcases (netStep_pipes hp hl hs).2 hlost with hl' | hnil
    · exact hne hl'
    · rw [hnil] at hin; cases hin
  -- 待つものは一つなので、古い PIPEFROM の返事は来ない
  rintro env drawn id rfl hlast hpend
  obtain ⟨hpipes, hlast'⟩ := hp.pending hpend
  simp only [netStep, hpipes, List.mem_singleton] at hs
  split at hs
  · next he => exact absurd (he ▸ hlast') hlast
  · cases hs

/-! ## 具体的な run -/

def aloneEnv : Env := ⟨0, false, some [], fun _ => true⟩

/-- 先客のいる選挙に、番号 `seq` の znode で加わる -/
def joinRun (path : Bytes) : List NetLabel :=
  [.callback aloneEnv 0 .kickoff, .callback aloneEnv 0 (.startElection 0 (some path)),
    .callback aloneEnv 0 (.listGroup 0 [ascii "B-0000000003", path])]

def resyncRun : List NetLabel :=
  joinRun (ascii "B-0000000005") ++
    [.callback aloneEnv 0 (.askMaster 0 (ascii "host")), .callback aloneEnv 0 .resync]

theorem lost_without_pending_pipefrom_resyncRun : ∃ n n',
    Reach netStep PipefromOk (initialNet (ascii "B") 0) n ∧
      netStep n (.pipeDone aloneEnv 0 2) = some n' ∧ n.ctx.member.step ≠ .lost ∧
      n'.ctx.member.step = .lost ∧ n'.lastPipe = some 2 ∧ 2 ∉ n'.pipes := by
  obtain ⟨n, hn, hne, n', hn', hl, hlast⟩ :
      ∃ n ∈ exec netStep (initialNet (ascii "B") 0) resyncRun, n.ctx.member.step ≠ .lost ∧
        ∃ n' ∈ netStep n (.pipeDone aloneEnv 0 2),
          n'.ctx.member.step = .lost ∧ n'.lastPipe = some 2 := by
    decide +kernel
  have hreach : Reach netStep PipefromOk (initialNet (ascii "B") 0) n :=
    reach_of_exec _ (by decide +kernel) hn
  have hok : PipefromOk n (.pipeDone aloneEnv 0 2) := trivial
  exact ⟨n, n', hreach, hn', hne, hl, hlast,
    (lost_without_pending_pipefrom hreach hok hn').1 hne hl 2 hlast⟩

/-- 再同期の返事の前に選挙を離れ、加わり直して、もう一度再同期を出す run -/
def forgottenRun : List NetLabel :=
  resyncRun ++ [.callback aloneEnv 0 .exit, .callback aloneEnv 0 (.leaveElection 0)] ++
    joinRun (ascii "B-0000000008") ++
    [.callback aloneEnv 0 .resync, .callback aloneEnv 0 (.askMaster 0 (ascii "host"))]

/-- **忘れられた PIPEFROM（2 番）の返事が今のもの（4 番）を終わったことにし、4 番の返事が来ないまま LOST になる。** -/
theorem older_answer_ends_pipefrom : ∃ n n', Reachable netStep (initialNet (ascii "B") 0) n ∧
      netStep n (.pipeDone aloneEnv 0 2) = some n' ∧
      n.ctx.member.step = .prelost ∧ n.ctx.member.pendingPipefrom = true ∧ n.lastPipe = some 4 ∧
      n'.ctx.member.step = .lost ∧ n'.ctx.member.pendingPipefrom = false ∧
      n'.lastPipe = some 4 ∧ 4 ∈ n'.pipes := by
  obtain ⟨n, hn, n', hn', hfacts⟩ : ∃ n ∈ exec netStep (initialNet (ascii "B") 0) forgottenRun,
      ∃ n' ∈ netStep n (.pipeDone aloneEnv 0 2),
        n.ctx.member.step = .prelost ∧ n.ctx.member.pendingPipefrom = true ∧ n.lastPipe = some 4 ∧
        n'.ctx.member.step = .lost ∧ n'.ctx.member.pendingPipefrom = false ∧
        n'.lastPipe = some 4 ∧ 4 ∈ n'.pipes := by
    decide +kernel
  exact ⟨n, n', reachable_of_exec _ hn, hn', hfacts⟩

end Redcurrant.Sqliterepo.Election
