import Redcurrant.Infra.Run
import Redcurrant.Sqliterepo.Election.Acts

/-!
# member の役割と id

どの順の callback でも、PRELEAD・LEADER の member は自分を、PRELOST・LOST は他を master とする（`reachable_role`）。
-/

namespace Redcurrant.Sqliterepo.Election

open Infra List Member

/-- 役割に対する id と URL の条件 -/
structure RoleOk (m : Member) : Prop where
  lead : m.step = .prelead ∨ m.step = .leader → 0 ≤ m.myid ∧ m.masterId = m.myid
  follow : m.step = .prelost ∨ m.step = .lost → 0 ≤ m.masterId ∧ m.masterId ≠ m.myid
  url : m.step = .lost → m.masterUrl.isSome

/-- 役割を持たない状態 -/
def Step.neutral : Step → Bool
  | .prelost | .prelead | .lost | .leader => false
  | _ => true

variable {env : Env} {evt : Event} {c c' : Ctx} {m m' : Member}

theorem roleOk_of_neutral (h : m.step.neutral) : RoleOk m := by
  constructor
  · rintro (hs | hs) <;> simp [hs, Step.neutral] at h
  · rintro (hs | hs) <;> simp [hs, Step.neutral] at h
  · intro hs
    simp [hs, Step.neutral] at h

theorem RoleOk.congr (h : RoleOk m) (hs : m'.step = m.step) (hi : m'.myid = m.myid)
    (hm : m'.masterId = m.masterId) (hu : m'.masterUrl = m.masterUrl) : RoleOk m' := by
  constructor
  · rw [hs, hi, hm]; exact h.lead
  · rw [hs, hi, hm]; exact h.follow
  · rw [hs, hu]; exact h.url

/-! ## 役割を捨てる操作 -/

theorem becomeLeaver_neutral (env : Env) (c : Ctx) : (becomeLeaver env c).member.step.neutral := by
  unfold becomeLeaver
  split <;> rfl

theorem becomeCandidate_neutral (env : Env) (c : Ctx) :
    (becomeCandidate env c).member.step.neutral := by
  unfold becomeCandidate
  split <;> rfl

theorem restartElection_neutral (env : Env) (c : Ctx) :
    (restartElection env c).member.step.neutral := by
  rcases restartElection_cases env c with ⟨-, he⟩ | he | he | he <;> rw [he]
  · exact becomeLeaver_neutral env c
  · rfl
  · rfl
  · simp [Ctx.send, Step.neutral]

/-! ## 役割を保つ操作 -/

theorem resyncIfNotPending_roleOk (h : RoleOk m) : RoleOk m.resyncIfNotPending := by
  unfold resyncIfNotPending
  split
  · exact h
  · exact h.congr rfl rfl rfl rfl

theorem memberPing_roleOk (h : RoleOk c.member) : RoleOk (memberPing env c).member := by
  rcases memberPing_cases env c with he | he | he <;> rw [he]
  · exact h
  · exact h.congr (by simp) (by simp) (by simp) (by simp)
  · exact roleOk_of_neutral (becomeLeaver_neutral _ _)

theorem finishPrelost_roleOk (hs : c.member.step = .prelost) (h : RoleOk c.member) :
    RoleOk (finishPrelost env c).member := by
  rcases finishPrelost_cases env c with he | he | he | he | ⟨-, hu, he⟩ <;> rw [he]
  · exact h
  · exact roleOk_of_neutral (becomeLeaver_neutral _ _)
  · exact resyncIfNotPending_roleOk (h.congr rfl rfl rfl rfl)
  · exact h.congr rfl rfl rfl rfl
  · have hf := h.follow (.inl hs)
    exact ⟨by simp [Ctx.setStatus, Ctx.update, setStatus], fun _ => hf, fun _ => hu⟩

theorem finishPrelead_roleOk (hs : c.member.step = .prelead) (h : RoleOk c.member) :
    RoleOk (finishPrelead env c).member := by
  rcases finishPrelead_cases env c with he | he | he <;> rw [he]
  · exact h
  · exact roleOk_of_neutral (becomeLeaver_neutral _ _)
  · have hl := h.lead (.inl hs)
    refine ⟨fun _ => hl, ?_, ?_⟩ <;> simp [Ctx.setStatus, Ctx.update, setStatus]

/-- **役割を決める `manage_list`。** 一覧の id は負でない。 -/
theorem manageList_roleOk {ids : List Int} (hids : ∀ i ∈ ids, 0 ≤ i) :
    RoleOk (manageList env ids c).member := by
  rcases manageList_cases env c ids with ⟨-, he⟩ | ⟨hin, -, he⟩ | ⟨hin, hgm, he | ⟨path, he⟩⟩ <;>
    rw [he]
  · exact roleOk_of_neutral (restartElection_neutral _ _)
  · -- 自分が先頭
    constructor
    · intro _
      simp only [deferGetvers_myid, deferGetvers_masterId]
      exact ⟨(inGroup_iff.mp hin).1, rfl⟩
    all_goals simp [Ctx.update, setStatus]
  · exact roleOk_of_neutral (becomeLeaver_neutral _ _)
  · -- 先頭は自分でなく、一覧は空でない
    obtain ⟨hmy, hmem⟩ := inGroup_iff.mp hin
    obtain ⟨i, rest, rfl⟩ := exists_cons_of_ne_nil (ne_nil_of_mem hmem)
    have hne : i ≠ c.member.myid := by
      simpa [groupMaster, Int.not_lt.mpr hmy] using hgm
    constructor
    · simp [prelostCtx, Ctx.send, Ctx.update, setStatus]
    · intro _
      simp only [deferGetvers_myid, deferGetvers_masterId]
      exact ⟨hids i mem_cons_self, hne⟩
    · simp [prelostCtx, Ctx.send, Ctx.update, setStatus]

/-! ## 1 step -/

theorem acknowledge_roleOk (h : RoleOk m) : RoleOk (acknowledge evt m) := by
  obtain ⟨_, _, _, _, he⟩ := acknowledge_eq evt m
  rw [he]
  exact h.congr rfl rfl rfl rfl

theorem count_roleOk (v : Verdict) (h : RoleOk m) : RoleOk (v.count m) := by
  have hc : RoleOk m.countGetvers := by
    unfold countGetvers
    split
    · exact h.congr rfl rfl rfl rfl
    · exact h
  cases v <;> exact hc.congr rfl rfl rfl rfl

/-- event が運ぶ一覧の id は負でない -/
def Event.idsNonneg : Event → Prop
  | .listOk ids => ∀ i ∈ ids, 0 ≤ i
  | _ => True

theorem acts_roleOk (ha : Acts env c evt c') (hids : evt.idsNonneg) (h : RoleOk c.member) :
    RoleOk c'.member := by
  cases ha with
  | ignored _ => exact h
  | disconnect | unwatched _ _ | notCreated _ | left _ | forget _ => exact roleOk_of_neutral rfl
  | restart _ | restartResync _ => exact roleOk_of_neutral (restartElection_neutral _ _)
  | exitEarly _ | leave _ | leaveAgain _ | outdatedLead _ =>
    exact roleOk_of_neutral (becomeLeaver_neutral _ _)
  | created _ _ | candidate _ => exact roleOk_of_neutral (becomeCandidate_neutral _ _)
  | ping _ => exact memberPing_roleOk h
  | resync _ => exact resyncIfNotPending_roleOk h
  | list _ => exact manageList_roleOk hids
  | retry _ =>
    exact h.congr (deferGetvers_step env c) (deferGetvers_myid env c) (deferGetvers_masterId env c)
      (deferGetvers_masterUrl env c)
  | masterOk hs =>
    refine finishPrelost_roleOk hs ⟨?_, fun _ => h.follow (.inl hs), fun _ => rfl⟩
    simp [Ctx.update, setMasterUrl, hs]
  | replyLost hs _ => exact finishPrelost_roleOk ((count_step _ _).trans hs) (count_roleOk _ h)
  | outdatedLost hs => exact resyncIfNotPending_roleOk (count_roleOk .outdated h)
  | replyLead hs _ => exact finishPrelead_roleOk ((count_step _ _).trans hs) (count_roleOk _ h)
  | resynced hs _ hu =>
    refine ⟨?_, fun _ => h.follow (.inl hs), fun _ => hu⟩
    simp [Ctx.setStatus, Ctx.update, setStatus]
  | askUse _ => exact h.congr rfl rfl rfl rfl
  | lostResync hs =>
    refine ⟨?_, fun _ => h.follow (.inr hs), ?_⟩ <;> simp [Ctx.setStatus, Ctx.update, setStatus]

theorem flushPipefrom_roleOk (h : RoleOk c.member) : RoleOk (flushPipefrom c).member := by
  rcases flushPipefrom_cases c with he | ⟨source, he⟩ <;> rw [he]
  · exact h
  · exact h.congr rfl rfl rfl rfl

theorem flushUse_roleOk (h : RoleOk c.member) : RoleOk (flushUse env c).member := by
  unfold flushUse
  split
  · exact roleOk_of_neutral (restartElection_neutral _ _)
  · exact h

theorem transition_roleOk (hids : evt.idsNonneg) (h : RoleOk c.member) :
    RoleOk (transition env evt c).member :=
  flushUse_roleOk (flushPipefrom_roleOk
    (acts_roleOk (transition'_acts env evt c) hids (acknowledge_roleOk h)))

/-! ## callback -/

theorem strtoll_afterLast_nonneg {s t : Bytes} (h : afterLast 45 s = some t) : 0 ≤ strtoll t := by
  refine strtoll_nonneg_of_no_minus ?_
  unfold afterLast at h
  split at h
  · cases h
    intro hm
    have := mem_takeWhile_imp (mem_reverse.mp hm)
    simp at this
  · cases h

theorem nodevToInt64v_nonneg {names : List Bytes} {key : Bytes} :
    ∀ i ∈ nodevToInt64v names key, 0 ≤ i := by
  intro i hi
  simp only [nodevToInt64v, mem_insertionSort, mem_filterMap, Option.map_eq_some_iff] at hi
  obtain ⟨s, -, t, ht, rfl⟩ := hi
  exact strtoll_afterLast_nonneg ht

theorem raises_idsNonneg {inp : Input} (h : Raises m inp evt) : evt.idsNonneg := by
  cases h with
  | listOk => exact nodevToInt64v_nonneg
  | @endGetvers r reply loc => cases getversVerdict reply loc <;> trivial
  | _ => trivial

theorem memberStep_roleOk {l : Label} (hs : memberStep c l = some c') (h : RoleOk c.member) :
    RoleOk c'.member := by
  unfold memberStep handle at hs
  split at hs
  · cases hs
  · cases hs; exact h
  · next evt he =>
    cases hs
    exact transition_roleOk (raises_idsNonneg (outcome_raises he)) h

/-- **どの callback がどの順で来ても member の id と URL は役割に合っている。** -/
theorem reachable_role {key : Bytes} {now : Nat}
    (h : Reachable memberStep (initialCtx key now) c) : RoleOk c.member :=
  h.invariant (I := fun c => RoleOk c.member) (roleOk_of_neutral rfl)
    fun hr _ hs => memberStep_roleOk hs hr

def calmEnv (peers : List Bytes) : Env := ⟨0, false, some peers, fun _ => true⟩

/-- 先客のいる選挙に加わり、LOST になるまでの callback -/
def lostInputs : List Input :=
  [.kickoff, .startElection 0 (some (ascii "B-0000000005")),
    .listGroup 0 [ascii "B-0000000005", ascii "B-0000000003"], .askMaster 0 (ascii "host"),
    .endGetvers 2 (.error ⟨500, "timeout"⟩) (.ok none)]

theorem reachable_role_lostInputs : ∃ c,
    Reachable memberStep (initialCtx (ascii "B") 0) c ∧ c.member.step = .lost ∧
      RoleOk c.member := by
  obtain ⟨c, hc, hs⟩ : ∃ c ∈ exec memberStep (initialCtx (ascii "B") 0)
      (lostInputs.map fun i => ⟨calmEnv [ascii "peer"], i, 0⟩), c.member.step = .lost := by
    decide +kernel
  exact ⟨c, reachable_of_exec _ hc, hs, reachable_role (reachable_of_exec _ hc)⟩

end Redcurrant.Sqliterepo.Election
