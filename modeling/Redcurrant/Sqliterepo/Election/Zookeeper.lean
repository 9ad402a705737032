import Redcurrant.Infra.Run
import Redcurrant.Sqliterepo.Election.Acts

/-!
# ZooKeeper を介した選挙

任意個の process と ZooKeeper の directory の系。server は依頼をどの順でも実行し、作成のたびに番号が増える。通知は
届かないことも、znode が消えることもある。
-/

namespace Redcurrant.Sqliterepo.Election

open Infra List Option Function Member

/-! ## 系 -/

variable {ι : Type}

/-- znode。`owner` は作った process で、他の base のものなら `none`。 -/
structure Znode (ι : Type) where
  name : Bytes
  seq : Nat
  owner : Option ι
  deriving DecidableEq

inductive ZkReq
  | create (path : Bytes)
  | list
  | leave (path : Bytes)
  deriving DecidableEq

/-- 実行された依頼の、まだ届いていない通知 -/
inductive Completion
  | created (path : Bytes)
  | listed (names : List Bytes)
  | left (zrc : Int)
  deriving DecidableEq

structure Proc where
  ctx : Ctx
  reqs : List ZkReq
  comps : List Completion
  deriving DecidableEq

structure Sys (ι : Type) where
  nodes : List (Znode ι)
  next : Nat
  procs : ι → Proc

/-- `sent` のうち、znode の作成・一覧・削除の依頼 -/
def zkSent (l : List Request) : List ZkReq :=
  l.filterMap fun
    | .create path => some (.create path)
    | .list _ => some .list
    | .leave path => some (.leave path)
    | _ => none

/-- 通知が呼ぶ callback -/
def Completion.input : Completion → Input
  | .created path => .startElection 0 (some path)
  | .listed names => .listGroup 0 names
  | .left zrc => .leaveElection zrc

/-- server の通知としてだけ届く callback -/
def Input.fromServer : Input → Bool
  | .startElection zrc _ => zrc == 0
  | .listGroup zrc _ => zrc == 0
  | .leaveElection zrc => zrc == 0 || zrc == zNoNode
  | _ => false

/-- callback を member に渡し、出された依頼を待ち行列に加える -/
def Proc.run (p : Proc) (env : Env) (drawn : Nat) (input : Input) : Option Proc :=
  (handle env input { p.ctx with nextId := p.ctx.nextId + drawn, sent := [] }).map fun c =>
    { p with ctx := c, reqs := p.reqs ++ zkSent c.sent }

inductive ZkLabel (ι : Type)
  | callback (i : ι) (env : Env) (drawn : Nat) (input : Input)
  | serve (i : ι) (k : Nat) (names : List Bytes)
  | deliver (i : ι) (k : Nat) (env : Env) (drawn : Nat)
  | vanish (name : Bytes)
  | foreign (other : Bytes)

def Sys.setProc [DecidableEq ι] (s : Sys ι) (i : ι) (p : Proc) : Sys ι :=
  { s with procs := update s.procs i p }

def Sys.addNode (s : Sys ι) (path : Bytes) (owner : Option ι) : Sys ι :=
  { s with nodes := s.nodes ++ [⟨path ++ decPad s.next, s.next, owner⟩], next := s.next + 1 }

def Sys.removeNode (s : Sys ι) (name : Bytes) : Sys ι :=
  { s with nodes := s.nodes.filter (·.name != name) }

/-- process `i` の `k` 番目の依頼を終え、通知を出す -/
def Sys.complete [DecidableEq ι] (s : Sys ι) (i : ι) (k : Nat) (comp : Completion) : Sys ι :=
  s.setProc i { s.procs i with
      reqs := (s.procs i).reqs.eraseIdx k, comps := (s.procs i).comps ++ [comp] }

/-- `i` の `k` 番目の依頼の実行。番号は 64 bit に収まる。 -/
def Sys.serve [DecidableEq ι] (s : Sys ι) (i : ι) (k : Nat) (names : List Bytes) : Option (Sys ι) :=
  match (s.procs i).reqs[k]? with
  | none => none
  | some (.create path) =>
    if s.next < 2 ^ 63 then
      some ((s.addNode path (some i)).complete i k (.created (path ++ decPad s.next)))
    else none
  | some .list =>
    if names.Perm (s.nodes.map (·.name)) then some (s.complete i k (.listed names)) else none
  | some (.leave path) =>
    some ((s.removeNode path).complete i k
      (.left (if s.nodes.any (·.name == path) then 0 else zNoNode)))

/-- 系の 1 step。`key` は選挙の base の名前。 -/
def zkStep [DecidableEq ι] (key : Bytes) (s : Sys ι) : ZkLabel ι → Option (Sys ι)
  | .callback i env drawn input =>
    if input.fromServer then none
    else ((s.procs i).run env drawn input).map (s.setProc i)
  | .serve i k names => s.serve i k names
  | .deliver i k env drawn =>
    match (s.procs i).comps[k]? with
    | none => none
    | some comp =>
      ({ s.procs i with comps := (s.procs i).comps.eraseIdx k }.run env drawn comp.input).map
        (s.setProc i)
  | .vanish name => some (s.removeNode name)
  | .foreign other =>
    -- 固定長の hash なので、他の base の名前では始まらない
    if other.length = key.length ∧ other ≠ key ∧ s.next < 2 ^ 63 then
      some (s.addNode (other ++ ascii "-") none)
    else none

def initialSys (key : Bytes) (now : ι → Nat) : Sys ι :=
  ⟨[], 0, fun i => ⟨initialCtx key (now i), [], []⟩⟩

/-! ## znode の名前 -/

def nodeName (key : Bytes) (seq : Nat) : Bytes := key ++ ascii "-" ++ decPad seq

theorem afterLast_nodeName (key : Bytes) (seq : Nat) :
    afterLast 45 (nodeName key seq) = some (decPad seq) := by
  have : nodeName key seq = key ++ 45 :: decPad seq := by simp [nodeName, ascii]
  rw [this]
  exact afterLast_append (decPad_no_minus seq)

theorem hasPrefix_nodeName (key : Bytes) (seq : Nat) : hasPrefix (nodeName key seq) key = true := by
  rw [nodeName, append_assoc]
  exact isPrefixOf_iff_prefix.mpr (prefix_append _ _)

theorem hasPrefix_other {key other : Bytes} {seq : Nat} (hl : other.length = key.length)
    (hne : other ≠ key) : hasPrefix (nodeName other seq) key = false := by
  refine Bool.eq_false_iff.mpr fun h => hne ?_
  obtain ⟨t, ht⟩ := isPrefixOf_iff_prefix.mp h
  rw [nodeName, append_assoc] at ht
  exact (append_inj_left ht hl.symm).symm

theorem nodeName_inj {key : Bytes} {a b : Nat} (ha : a < 2 ^ 63) (hb : b < 2 ^ 63)
    (h : nodeName key a = nodeName key b) : a = b := by
  have hd : decPad a = decPad b := append_cancel_left h
  have h1 := strtoll_decPad (n := a) (by omega)
  rw [hd, strtoll_decPad (n := b) (by omega)] at h1
  omega

variable {names : List Bytes}

theorem mem_nodevToInt64v {key : Bytes} {x : Int} : x ∈ nodevToInt64v names key ↔
    ∃ s ∈ names, hasPrefix s key = true ∧ ∃ t, afterLast 45 s = some t ∧ strtoll t = x := by
  simp [nodevToInt64v, and_assoc]

theorem nodevToInt64v_head_le {key : Bytes} {x : Int} (h : (nodevToInt64v names key).head? = some x) :
    ∀ y ∈ nodevToInt64v names key, x ≤ y := by
  have hp : (nodevToInt64v names key).Pairwise (· ≤ ·) := pairwise_insertionSort _ _
  revert h hp
  cases nodevToInt64v names key with
  | nil => simp
  | cons a l =>
    intro h hp y hy
    cases h
    rcases mem_cons.mp hy with rfl | hy
    · exact le_refl y
    · exact (pairwise_cons.mp hp).1 y hy

/-! ## 役割と番号の変わり方 -/

variable {env : Env} {evt : Event} {c c' c'' : Ctx}

/-- member `m` が出してよい依頼。削除の path は自分の番号のもの。 -/
def Allowed (m : Member) : Request → Prop
  | .create path => path = m.key ++ ascii "-"
  | .leave path => path = m.key ++ ascii "-" ∨ (0 ≤ m.myid ∧ path = nodeName m.key m.myid.toNat)
  | _ => True

theorem allowed_congr {m m' : Member} {r : Request} (h : Allowed m' r) (hk : m'.key = m.key)
    (hi : 0 ≤ m'.myid → m'.myid = m.myid) : Allowed m r := by
  cases r with
  | create path => exact Eq.trans h (by rw [hk])
  | leave path =>
    rcases h with h | ⟨h0, h⟩
    · exact .inl (hk ▸ h)
    · exact .inr ⟨hi h0 ▸ h0, by rw [h, hk, hi h0]⟩
  | _ => trivial

theorem allowed_leave (m : Member) : Allowed m (.leave m.fullpath) := by
  unfold fullpath
  split
  · next h => exact .inr ⟨h, rfl⟩
  · exact .inl rfl

/-- 新たに master とならず、番号を新しくすることもない動き -/
structure LeadKeep (c c' : Ctx) : Prop where
  key : c'.member.key = c.member.key
  myid : c'.member.myid = c.member.myid ∨ c'.member.myid = -1
  lead : c'.member.step.leads = true → c.member.step.leads = true ∧ c'.member.myid = c.member.myid
  sent : ∀ r ∈ c'.sent, r ∈ c.sent ∨ Allowed c.member r

theorem LeadKeep.refl (c : Ctx) : LeadKeep c c :=
  ⟨rfl, .inl rfl, fun h => ⟨h, rfl⟩, fun _ h => .inl h⟩

theorem LeadKeep.trans (h : LeadKeep c c') (h' : LeadKeep c' c'') : LeadKeep c c'' := by
  refine ⟨h'.key.trans h.key, ?_, ?_, ?_⟩
  · rcases h'.myid with he | hz
    · rw [he]; exact h.myid
    · exact .inr hz
  · intro hs
    obtain ⟨hs', he'⟩ := h'.lead hs
    obtain ⟨hs, he⟩ := h.lead hs'
    exact ⟨hs, he'.trans he⟩
  intro r hr
  rcases h'.sent r hr with hr | hr
  · exact h.sent r hr
  refine .inr (allowed_congr hr h.key fun h0 => ?_)
  rcases h.myid with he | he
  · exact he
  · rw [he] at h0; exact absurd h0 (by decide)

theorem leadKeep_update {f : Member → Member} (hk : (f c.member).key = c.member.key)
    (hi : (f c.member).myid = c.member.myid)
    (hs : (f c.member).step.leads = true → c.member.step.leads = true) :
    LeadKeep c (c.update f) :=
  ⟨hk, .inl hi, fun h => ⟨hs h, hi⟩, fun _ h => .inl h⟩

theorem leadKeep_setStatus {s : Step} (hs : s.leads = false) : LeadKeep c (c.setStatus env s) := by
  refine leadKeep_update rfl rfl fun h => ?_
  rw [show s.leads = true from h] at hs
  cases hs

theorem leadKeep_reset {s : Step} (hs : s.leads = false) :
    LeadKeep c ((c.update reset).setStatus env s) := by
  refine ⟨rfl, .inr rfl, fun h => ?_, fun _ h => .inl h⟩
  rw [show s.leads = true from h] at hs
  cases hs

theorem leadKeep_send {r : Request} (hr : Allowed c.member r) : LeadKeep c (c.send r) := by
  refine ⟨rfl, .inl rfl, fun h => ⟨h, rfl⟩, fun r' hr' => ?_⟩
  rcases mem_append.mp hr' with hr' | hr'
  · exact .inl hr'
  · rw [mem_singleton.mp hr']; exact .inr hr

section

variable (env : Env) (c : Ctx)

theorem leadKeep_deferUse : LeadKeep c (deferUse env c).2 := by
  refine ⟨by simp, .inl (by simp), fun h => ⟨by simpa using h, by simp⟩, fun r hr => ?_⟩
  unfold deferUse at hr
  split at hr
  · exact .inl hr
  split at hr
  · exact .inl hr
  rcases mem_append.mp hr with hr | hr
  · exact .inl hr
  · rw [mem_singleton.mp hr]; exact .inr trivial

theorem leadKeep_deferGetvers : LeadKeep c (deferGetvers env c) := by
  refine ⟨by simp, .inl (by simp), fun h => ⟨by simpa using h, by simp⟩, fun r hr => ?_⟩
  unfold deferGetvers at hr
  split at hr
  · exact .inl hr
  rcases mem_append.mp hr with hr | hr
  · exact .inl hr
  · rw [mem_singleton.mp hr]; exact .inr trivial

theorem leadKeep_becomeLeaver : LeadKeep c (becomeLeaver env c) := by
  have h1 : LeadKeep c (c.update fun m => m.resetMaster.resetPending.setStatus env .leaving) :=
    leadKeep_update rfl rfl fun h => by cases h
  unfold becomeLeaver
  split
  · exact h1.trans (leadKeep_send (allowed_leave _))
  · exact h1.trans (leadKeep_setStatus rfl)

theorem leadKeep_becomeCandidate : LeadKeep c (becomeCandidate env c) := by
  have h1 : LeadKeep c (c.update fun m => m.resetMaster.setStatus env .candok) :=
    leadKeep_update rfl rfl fun h => by cases h
  unfold becomeCandidate
  split
  · exact h1.trans (leadKeep_send trivial)
  · exact h1.trans (leadKeep_setStatus rfl)

theorem leadKeep_restartElection : LeadKeep c (restartElection env c) := by
  have h1 : LeadKeep c (candreqCtx env c) := by
    refine LeadKeep.trans ?_ (leadKeep_deferUse env _)
    exact ⟨rfl, .inr rfl, fun h => (by cases h), fun _ h => .inl h⟩
  rcases restartElection_cases env c with ⟨-, he⟩ | he | he | he <;> rw [he]
  · exact leadKeep_becomeLeaver env c
  · exact leadKeep_reset rfl
  · exact h1.trans (leadKeep_setStatus rfl)
  · -- 作成の path は、番号を持たない member のもの
    rw [← h1.key]
    exact h1.trans (leadKeep_send rfl)

theorem leadKeep_memberPing : LeadKeep c (memberPing env c) := by
  have hu := leadKeep_deferUse env c
  rcases memberPing_cases env c with he | he | he <;> rw [he]
  · exact .refl c
  · exact hu
  · exact hu.trans (leadKeep_becomeLeaver env _)

end

theorem leadKeep_resync (c : Ctx) : LeadKeep c (c.update resyncIfNotPending) := by
  have : c.member.resyncIfNotPending.key = c.member.key ∧
      c.member.resyncIfNotPending.myid = c.member.myid ∧
      c.member.resyncIfNotPending.step = c.member.step := by
    unfold resyncIfNotPending
    split <;> exact ⟨rfl, rfl, rfl⟩
  exact leadKeep_update this.1 this.2.1 (by rw [this.2.2]; exact id)

theorem leadKeep_count (v : Verdict) (c : Ctx) : LeadKeep c (c.update v.count) := by
  have : (v.count c.member).key = c.member.key ∧ (v.count c.member).myid = c.member.myid := by
    cases v <;> · simp only [Verdict.count, countGetvers]; split <;> exact ⟨rfl, rfl⟩
  exact leadKeep_update this.1 this.2 (by rw [count_step]; exact id)

theorem leadKeep_finishPrelost (env : Env) (c : Ctx) : LeadKeep c (finishPrelost env c) := by
  have h1 : LeadKeep c c.clearErrors := leadKeep_update rfl rfl id
  rcases finishPrelost_cases env c with he | he | he | he | ⟨-, -, he⟩ <;> rw [he]
  · exact .refl c
  · exact h1.trans (leadKeep_becomeLeaver env _)
  · exact h1.trans (leadKeep_resync _)
  · exact h1
  · exact h1.trans (leadKeep_setStatus rfl)

theorem leadKeep_finishPrelead (hs : c.member.step = .prelead) :
    LeadKeep c (finishPrelead env c) := by
  have h1 : LeadKeep c c.clearErrors := leadKeep_update rfl rfl id
  rcases finishPrelead_cases env c with he | he | he <;> rw [he]
  · exact .refl c
  · exact h1.trans (leadKeep_becomeLeaver env _)
  · refine h1.trans (leadKeep_update rfl rfl fun _ => ?_)
    simp [Ctx.clearErrors, Ctx.update, hs, Step.leads]

theorem manageList_lead (env : Env) (ids : List Int) (c : Ctx) : LeadKeep c (manageList env ids c) ∨
    ((manageList env ids c).member.key = c.member.key ∧
      (manageList env ids c).member.myid = c.member.myid ∧ 0 ≤ c.member.myid ∧
      ids.head? = some c.member.myid ∧
      ∀ r ∈ (manageList env ids c).sent, r ∈ c.sent ∨ Allowed c.member r) := by
  have h1 : LeadKeep c (c.setStatus env .candok) := leadKeep_setStatus rfl
  have h2 : LeadKeep c (prelostCtx env ids c) := by
    exact h1.trans (leadKeep_update rfl rfl fun h => by cases h)
  rcases manageList_cases env c ids with ⟨-, he⟩ | ⟨-, hg, he⟩ | ⟨-, -, he | ⟨path, he⟩⟩ <;> rw [he]
  · exact .inl (h1.trans (leadKeep_restartElection env _))
  · obtain ⟨hmy, hhead⟩ := groupMaster_iff.mp hg
    have h3 := leadKeep_deferGetvers env ((c.setStatus env .candok).update
      fun m => (m.setMasterId m.myid).setStatus env .prelead)
    refine .inr ⟨h3.key, by simp [Ctx.setStatus, Ctx.update, setStatus, setMasterId],
      hmy, hhead, h3.sent⟩
  · exact .inl (h2.trans (leadKeep_becomeLeaver env _))
  · exact .inl ((h2.trans (leadKeep_send (r := .ask _) trivial)).trans (leadKeep_deferGetvers env _))

/-- 一つの event での役割と番号の変わり方 -/
structure LeadMove (evt : Event) (c c' : Ctx) : Prop where
  key : c'.member.key = c.member.key
  myid : c'.member.myid = c.member.myid ∨ c'.member.myid = -1 ∨ evt = .createOk c'.member.myid
  lead : c'.member.step.leads = true → c'.member.myid = c.member.myid ∧
    (c.member.step.leads = true ∨
      ∃ ids, evt = .listOk ids ∧ 0 ≤ c.member.myid ∧ ids.head? = some c.member.myid)
  sent : ∀ r ∈ c'.sent, r ∈ c.sent ∨ Allowed c.member r ∨
    ∃ id, evt = .createOk id ∧ Allowed (c.member.setId id) r

theorem LeadKeep.move (h : LeadKeep c c') : LeadMove evt c c' :=
  ⟨h.key, h.myid.imp_right .inl, fun hs => ⟨(h.lead hs).2, .inl (h.lead hs).1⟩,
    fun r hr => (h.sent r hr).imp_right .inl⟩

theorem LeadMove.after (h : LeadMove evt c c') (h' : LeadKeep c' c'') : LeadMove evt c c'' := by
  refine ⟨h'.key.trans h.key, ?_, ?_, ?_⟩
  · rcases h'.myid with he | hz
    · rw [he]; exact h.myid
    · exact .inr (.inl hz)
  · intro hs
    obtain ⟨hs', he⟩ := h'.lead hs
    obtain ⟨hid, hl⟩ := h.lead hs'
    exact ⟨he.trans hid, hl⟩
  intro r hr
  rcases h'.sent r hr with hr | hr
  · exact h.sent r hr
  rcases h.myid with he | he | he
  · exact .inr (.inl (allowed_congr hr h.key fun _ => he))
  · refine .inr (.inl (allowed_congr hr h.key fun h0 => ?_))
    rw [he] at h0
    exact absurd h0 (by decide)
  · exact .inr (.inr ⟨_, he, allowed_congr hr h.key fun _ => rfl⟩)

theorem leadMove_setId {id : Int} (hs : c.member.step = .candreq) :
    LeadMove (.createOk id) c (c.update (·.setId id)) := by
  refine ⟨rfl, .inr (.inr rfl), fun h => ?_, fun _ h => .inl h⟩
  simp [Ctx.update, setId, hs, Step.leads] at h

theorem acts_lead (ha : Acts env c evt c') : LeadMove evt c c' := by
  cases ha with
  | ignored _ => exact (LeadKeep.refl c).move
  | disconnect | left _ | forget _ => exact (leadKeep_reset rfl).move
  | restart _ => exact (leadKeep_restartElection env c).move
  | restartResync _ => exact ((leadKeep_resync c).trans (leadKeep_restartElection env _)).move
  | exitEarly _ | leave _ | leaveAgain _ => exact (leadKeep_becomeLeaver env c).move
  | @created id hs _ =>
    exact ((leadMove_setId hs).after (leadKeep_send (r := .watch _) trivial)).after
      (leadKeep_becomeCandidate env _)
  | @unwatched id hs _ => exact (leadMove_setId hs).after (leadKeep_setStatus rfl)
  | notCreated _ | resynced _ _ _ => exact (leadKeep_setStatus rfl).move
  | ping _ => exact (leadKeep_memberPing env c).move
  | resync _ => exact (leadKeep_resync c).move
  | @list ids hs =>
    rcases manageList_lead env ids c with h | ⟨hk, hid, h0, hh, hc⟩
    · exact h.move
    · exact ⟨hk, .inl hid, fun _ => ⟨hid, .inr ⟨ids, rfl, h0, hh⟩⟩,
        fun r hr => (hc r hr).imp_right .inl⟩
  | candidate _ => exact (leadKeep_becomeCandidate env c).move
  | retry _ => exact ((leadKeep_deferGetvers env c).trans (leadKeep_update rfl rfl id)).move
  | @masterOk url _ =>
    have h1 : LeadKeep c (c.update (·.setMasterUrl (some url))) := leadKeep_update rfl rfl id
    exact (h1.trans (leadKeep_finishPrelost env _)).move
  | @replyLost v _ _ => exact ((leadKeep_count v c).trans (leadKeep_finishPrelost env _)).move
  | outdatedLost _ => exact ((leadKeep_count .outdated c).trans (leadKeep_resync _)).move
  | @replyLead v hs _ =>
    have hs' : (c.update v.count).member.step = .prelead := (count_step v _).trans hs
    exact ((leadKeep_count v c).trans (leadKeep_finishPrelead hs')).move
  | outdatedLead _ => exact ((leadKeep_count .outdated c).trans (leadKeep_becomeLeaver env _)).move
  | askUse _ => exact (leadKeep_update rfl rfl id : LeadKeep c _).move
  | lostResync _ =>
    have h1 : LeadKeep c (c.update fun m => { m with requestedPipefrom := true }) :=
      leadKeep_update rfl rfl id
    exact (h1.trans (leadKeep_setStatus rfl)).move

theorem leadKeep_flushPipefrom (c : Ctx) : LeadKeep c (flushPipefrom c) := by
  refine ⟨by simp, .inl (by simp), fun h => ⟨by simpa using h, by simp⟩, fun r hr => ?_⟩
  rcases flushPipefrom_cases c with he | ⟨source, he⟩ <;> rw [he] at hr
  · exact .inl hr
  rcases mem_append.mp hr with hr | hr
  · exact .inl hr
  · rw [mem_singleton.mp hr]; exact .inr trivial

theorem leadKeep_flushUse (env : Env) (c : Ctx) : LeadKeep c (flushUse env c) := by
  unfold flushUse
  split
  · exact leadKeep_restartElection env c
  · exact .refl c

/-- **一つの遷移での役割と番号の変わり方。** -/
theorem transition_lead (env : Env) (evt : Event) (c : Ctx) :
    LeadMove evt c (transition env evt c) := by
  have ha := acts_lead (transition'_acts env evt c)
  have h1 : LeadMove evt c (transition' env evt c) := by
    refine ⟨ha.key.trans (acknowledge_key evt _), ?_, ?_, ?_⟩
    · rw [← acknowledge_myid evt c.member]; exact ha.myid
    · rw [← acknowledge_myid evt c.member, ← acknowledge_step evt c.member]; exact ha.lead
    intro r hr
    rcases ha.sent r hr with hr | hr | ⟨id, he, hr⟩
    · exact .inl hr
    · exact .inr (.inl (allowed_congr hr (acknowledge_key evt _) fun _ => acknowledge_myid evt _))
    · exact .inr (.inr ⟨id, he, allowed_congr hr (acknowledge_key evt _) fun _ => rfl⟩)
  exact (h1.after (leadKeep_flushPipefrom _)).after (leadKeep_flushUse env _)

/-! ## 系の不変条件 -/

def Znode.ours (nd : Znode ι) : Prop := nd.owner ≠ none

/-- 一覧 `names` はある時点の snapshot で、後に作られた番号はどれより大きい -/
structure Snapshot (key : Bytes) (s : Sys ι) (names : List Bytes) : Prop where
  old : ∀ a ∈ nodevToInt64v names key, a < s.next
  below : ∀ a ∈ nodevToInt64v names key, ∀ nd ∈ s.nodes, nd.ours → (nd.seq : Int) < a →
    (nd.seq : Int) ∈ nodevToInt64v names key

structure NodesOk (key : Bytes) (s : Sys ι) : Prop where
  bound : s.next ≤ 2 ^ 63
  seq : ∀ nd ∈ s.nodes, nd.seq < s.next
  ours : ∀ nd ∈ s.nodes, nd.ours → nd.name = nodeName key nd.seq
  foreign : ∀ nd ∈ s.nodes, ¬nd.ours → hasPrefix nd.name key = false
  inj : ∀ nd ∈ s.nodes, ∀ nd' ∈ s.nodes, nd.seq = nd'.seq → nd = nd'

/-- 番号 `a` は process `i` のもの -/
def Belongs (s : Sys ι) (i : ι) (a : Int) : Prop :=
  a < s.next ∧ ∀ nd ∈ s.nodes, (nd.seq : Int) = a → nd.owner = some i

structure ProcOk (key : Bytes) (s : Sys ι) (i : ι) (p : Proc) : Prop where
  base : p.ctx.member.key = key
  creates : ∀ path, .create path ∈ p.reqs → path = key ++ ascii "-"
  leaves : ∀ path, .leave path ∈ p.reqs → path = key ++ ascii "-" ∨
    ∃ seq : Nat, path = nodeName key seq ∧ Belongs s i seq
  created : ∀ path, .created path ∈ p.comps → ∃ seq : Nat, path = nodeName key seq ∧ Belongs s i seq
  listed : ∀ names, .listed names ∈ p.comps → Snapshot key s names
  myid : 0 ≤ p.ctx.member.myid → Belongs s i p.ctx.member.myid
  lead : p.ctx.member.step.leads = true → 0 ≤ p.ctx.member.myid ∧
    ∀ nd ∈ s.nodes, nd.ours → p.ctx.member.myid ≤ nd.seq

structure ZkInv (key : Bytes) (s : Sys ι) : Prop where
  nodes : NodesOk key s
  procs : ∀ i, ProcOk key s i (s.procs i)

/-! ## server の動き -/

variable {key : Bytes} {s s' : Sys ι} {i : ι} {p p' : Proc} {drawn : Nat} {input : Input}

/-- 新しい znode の番号はそれまでのどれより大きい -/
structure Grows (s s' : Sys ι) : Prop where
  next : s.next ≤ s'.next
  nodes : ∀ nd ∈ s'.nodes, nd ∈ s.nodes ∨ s.next ≤ nd.seq

theorem Belongs.grows {a : Int} (h : Belongs s i a) (hg : Grows s s') : Belongs s' i a := by
  have hn := hg.next
  refine ⟨by have := h.1; omega, fun nd hnd he => ?_⟩
  rcases hg.nodes nd hnd with hold | hnew
  · exact h.2 nd hold he
  · have := h.1; omega

theorem Snapshot.grows (h : Snapshot key s names) (hg : Grows s s') : Snapshot key s' names := by
  have hn := hg.next
  refine ⟨fun a ha => by have := h.old a ha; omega, fun a ha nd hnd ho hlt => ?_⟩
  rcases hg.nodes nd hnd with hold | hnew
  · exact h.below a ha nd hold ho hlt
  · have := h.old a ha; omega

/-- **process の不変条件は server の動きで保たれる。** -/
theorem ProcOk.grows (h : ProcOk key s i p) (hg : Grows s s') : ProcOk key s' i p := by
  refine ⟨h.base, h.creates, ?_, ?_, fun names hn => (h.listed names hn).grows hg,
    fun h0 => (h.myid h0).grows hg, fun hs => ?_⟩
  · intro path hp
    rcases h.leaves path hp with he | ⟨seq, he, hb⟩
    · exact .inl he
    · exact .inr ⟨seq, he, hb.grows hg⟩
  · intro path hp
    obtain ⟨seq, he, hb⟩ := h.created path hp
    exact ⟨seq, he, hb.grows hg⟩
  · obtain ⟨h0, hle⟩ := h.lead hs
    refine ⟨h0, fun nd hnd ho => ?_⟩
    rcases hg.nodes nd hnd with hold | hnew
    · exact hle nd hold ho
    · have := (h.myid h0).1; omega

theorem grows_addNode (s : Sys ι) (path : Bytes) (owner : Option ι) :
    Grows s (s.addNode path owner) := by
  refine ⟨Nat.le_succ _, fun nd hnd => ?_⟩
  rcases mem_append.mp hnd with hnd | hnd
  · exact .inl hnd
  · rw [mem_singleton.mp hnd]; exact .inr (Nat.le_refl _)

theorem grows_removeNode (s : Sys ι) (name : Bytes) : Grows s (s.removeNode name) :=
  ⟨Nat.le_refl _, fun _ hnd => .inl (mem_of_mem_filter hnd)⟩

theorem nodesOk_addNode {path : Bytes} {owner : Option ι} (h : NodesOk key s)
    (hb : s.next < 2 ^ 63) (ho : owner ≠ none → path = key ++ ascii "-")
    (hf : owner = none → hasPrefix (path ++ decPad s.next) key = false) :
    NodesOk key (s.addNode path owner) := by
  have hmem : ∀ {nd}, nd ∈ (s.addNode path owner).nodes →
      nd ∈ s.nodes ∨ nd = ⟨path ++ decPad s.next, s.next, owner⟩ := by
    intro nd hnd
    rcases mem_append.mp hnd with hnd | hnd
    · exact .inl hnd
    · exact .inr (mem_singleton.mp hnd)
  refine ⟨hb, ?_, ?_, ?_, ?_⟩
  · intro nd hnd
    rcases hmem hnd with hnd | rfl
    · exact Nat.lt_succ_of_lt (h.seq nd hnd)
    · exact Nat.lt_succ_self _
  · intro nd hnd hours
    rcases hmem hnd with hnd | rfl
    · exact h.ours nd hnd hours
    · rw [ho hours]; rfl
  · intro nd hnd hours
    rcases hmem hnd with hnd | rfl
    · exact h.foreign nd hnd hours
    · exact hf (Decidable.not_not.mp hours)
  · intro nd hnd nd' hnd' he
    rcases hmem hnd with hnd | rfl <;> rcases hmem hnd' with hnd' | rfl
    · exact h.inj nd hnd nd' hnd' he
    · exact absurd (h.seq nd hnd) (by rw [he]; exact Nat.lt_irrefl _)
    · exact absurd (h.seq nd' hnd') (by rw [← he]; exact Nat.lt_irrefl _)
    · rfl

theorem nodesOk_removeNode {name : Bytes} (h : NodesOk key s) : NodesOk key (s.removeNode name) :=
  ⟨h.bound, fun nd hnd => h.seq nd (mem_of_mem_filter hnd),
    fun nd hnd => h.ours nd (mem_of_mem_filter hnd),
    fun nd hnd => h.foreign nd (mem_of_mem_filter hnd),
    fun nd hnd nd' hnd' => h.inj nd (mem_of_mem_filter hnd) nd' (mem_of_mem_filter hnd')⟩

theorem zkInv_setProc [DecidableEq ι] (hn : NodesOk key s) (hp : ∀ j, ProcOk key s j (s.procs j))
    (hi : ProcOk key s i p) : ZkInv key (s.setProc i p) := by
  refine ⟨⟨hn.bound, hn.seq, hn.ours, hn.foreign, hn.inj⟩, fun j => ?_⟩
  have hj : ProcOk key s j ((s.setProc i p).procs j) := by
    by_cases he : j = i
    · subst he
      rw [show (s.setProc j p).procs j = p from update_self ..]
      exact hi
    · rw [show (s.setProc i p).procs j = s.procs j from update_of_ne he ..]
      exact hp j
  exact hj.grows ⟨Nat.le_refl _, fun _ h => .inl h⟩

theorem mem_listing (h : NodesOk key s) (hp : names.Perm (s.nodes.map (·.name))) {x : Int} :
    x ∈ nodevToInt64v names key ↔ ∃ nd ∈ s.nodes, nd.ours ∧ (nd.seq : Int) = x := by
  have hval : ∀ nd ∈ s.nodes, nd.ours → ∀ t, afterLast 45 nd.name = some t → strtoll t = nd.seq := by
    intro nd hnd ho t ht
    rw [h.ours nd hnd ho, afterLast_nodeName] at ht
    cases ht
    have := h.seq nd hnd
    have := h.bound
    exact strtoll_decPad (by omega)
  rw [mem_nodevToInt64v]
  constructor
  · rintro ⟨nm, hnm, hpre, t, ht, rfl⟩
    obtain ⟨nd, hnd, rfl⟩ := mem_map.mp (hp.mem_iff.mp hnm)
    have ho : nd.ours := by
      intro hnone
      rw [h.foreign nd hnd (fun hh => hh hnone)] at hpre
      cases hpre
    exact ⟨nd, hnd, ho, (hval nd hnd ho t ht).symm⟩
  · rintro ⟨nd, hnd, ho, rfl⟩
    refine ⟨nd.name, hp.mem_iff.mpr (mem_map.mpr ⟨nd, hnd, rfl⟩), ?_, decPad nd.seq, ?_, ?_⟩
    · rw [h.ours nd hnd ho]; exact hasPrefix_nodeName key _
    · rw [h.ours nd hnd ho]; exact afterLast_nodeName key _
    · exact hval nd hnd ho _ (by rw [h.ours nd hnd ho]; exact afterLast_nodeName key _)

theorem snapshot_of_listing (h : NodesOk key s) (hp : names.Perm (s.nodes.map (·.name))) :
    Snapshot key s names := by
  refine ⟨fun a ha => ?_, fun a _ nd hnd ho _ => (mem_listing h hp).mpr ⟨nd, hnd, ho, rfl⟩⟩
  obtain ⟨nd, hnd, -, rfl⟩ := (mem_listing h hp).mp ha
  have := h.seq nd hnd
  omega

/-! ## process の動き -/

theorem mem_of_zkSent_create {l : List Request} {path : Bytes} (h : .create path ∈ zkSent l) :
    .create path ∈ l := by
  obtain ⟨r, hr, he⟩ := mem_filterMap.mp h
  cases r <;> cases he
  exact hr

theorem mem_of_zkSent_leave {l : List Request} {path : Bytes} (h : .leave path ∈ zkSent l) :
    .leave path ∈ l := by
  obtain ⟨r, hr, he⟩ := mem_filterMap.mp h
  cases r <;> cases he
  exact hr

/-- 番号や一覧を運ぶ event は server の通知と合っている -/
def Event.Faithful (key : Bytes) (s : Sys ι) (i : ι) : Event → Prop
  | .createOk id => Belongs s i id
  | .listOk ids => ∃ names, ids = nodevToInt64v names key ∧ Snapshot key s names
  | _ => True

theorem procOk_transition (h : ProcOk key s i p) (hc : c.member = p.ctx.member) (hsent : c.sent = [])
    (hf : evt.Faithful key s i) :
    ProcOk key s i { p with
        ctx := transition env evt c, reqs := p.reqs ++ zkSent (transition env evt c).sent } := by
  have hm := transition_lead env evt c
  have hbase : c.member.key = key := hc ▸ h.base
  have hmyid : 0 ≤ c.member.myid → Belongs s i c.member.myid := by rw [hc]; exact h.myid
  have hlead : c.member.step.leads = true → 0 ≤ c.member.myid ∧
      ∀ nd ∈ s.nodes, nd.ours → c.member.myid ≤ nd.seq := by rw [hc]; exact h.lead
  refine ⟨hm.key.trans hbase, ?_, ?_, h.created, h.listed, fun h0 => ?_, fun hs => ?_⟩
  · intro path hp
    rcases mem_append.mp hp with hp | hp
    · exact h.creates path hp
    rcases hm.sent _ (mem_of_zkSent_create hp) with hp | hp | ⟨id, -, hp⟩
    · rw [hsent] at hp; cases hp
    · rw [← hbase]; exact hp
    · rw [← hbase]; exact hp
  · intro path hp
    rcases mem_append.mp hp with hp | hp
    · exact h.leaves path hp
    rcases hm.sent _ (mem_of_zkSent_leave hp) with ha | ha | ⟨id, rfl, ha⟩
    · rw [hsent] at ha; cases ha
    · rw [← hbase]
      refine Or.imp_right (fun ⟨h0, he⟩ => ⟨_, he, ?_⟩) ha
      rw [Int.toNat_of_nonneg h0]
      exact hmyid h0
    · rw [← hbase]
      refine Or.imp_right (fun ⟨h0, he⟩ => ⟨_, he, ?_⟩) ha
      rw [Int.toNat_of_nonneg h0]
      exact hf
  · rcases hm.myid with he | he | he
    · rw [show (transition env evt c).member.myid = _ from he] at h0 ⊢
      exact hmyid h0
    · rw [show (transition env evt c).member.myid = _ from he] at h0
      exact absurd h0 (by decide)
    · rwa [he] at hf
  · obtain ⟨hid, hl⟩ := hm.lead hs
    rw [hid]
    rcases hl with hl | ⟨ids, rfl, h0, hh⟩
    · exact hlead hl
    -- 先頭より小さい番号の znode も一覧にある
    obtain ⟨names, rfl, hsnap⟩ := hf
    refine ⟨h0, fun nd hnd ho => Int.not_lt.mp fun hlt => ?_⟩
    have hmem := hsnap.below _ (mem_of_mem_head? hh) nd hnd ho hlt
    exact absurd (nodevToInt64v_head_le hh _ hmem) (Int.not_le.mpr hlt)

theorem procOk_run (h : ProcOk key s i p) (hrun : p.run env drawn input = some p')
    (hf : ∀ e, Raises p.ctx.member input e → e.Faithful key s i) : ProcOk key s i p' := by
  obtain ⟨c, hc, rfl⟩ := map_eq_some_iff.mp hrun
  unfold handle at hc
  split at hc
  · cases hc
  · cases hc
    exact ⟨h.base, fun path hp => h.creates path (by simpa [zkSent] using hp),
      fun path hp => h.leaves path (by simpa [zkSent] using hp), h.created, h.listed, h.myid, h.lead⟩
  · next e ho =>
    cases hc
    exact procOk_transition h rfl rfl (hf e (outcome_raises ho))

theorem faithful_of_local {m : Member} (hin : input.fromServer = false) (hr : Raises m input evt) :
    evt.Faithful key s i := by
  cases hr with
  | listOk => cases hin
  | createOk _ => cases hin
  | @endGetvers r reply loc => cases getversVerdict reply loc <;> trivial
  | _ => trivial

theorem faithful_of_completion {comp : Completion} {m : Member} (h : ProcOk key s i p)
    (hn : NodesOk key s) (hm : m.key = key) (hin : comp ∈ p.comps)
    (hr : Raises m comp.input evt) : evt.Faithful key s i := by
  cases comp with
  | created path =>
    obtain ⟨seq, rfl, hb⟩ := h.created path hin
    cases hr with
    | disconnected => trivial
    | createKo => trivial
    | createOk hs =>
      rw [afterLast_nodeName] at hs
      cases hs
      have := hb.1
      have := hn.bound
      rw [strtoll_decPad (by omega)]
      exact hb
  | listed names =>
    cases hr with
    | disconnected => trivial
    | listKo => trivial
    | listOk => exact ⟨names, by rw [hm], h.listed names hin⟩
  | left zrc =>
    cases hr with
    | disconnected => trivial
    | leaveOk _ => trivial
    | leaveKo => trivial

/-! ## 系の 1 step -/

section Step

variable [DecidableEq ι]

theorem zkInv_complete {comp : Completion} {k : Nat} (h : ZkInv key s)
    (hcreated : ∀ path, comp = .created path → ∃ seq : Nat, path = nodeName key seq ∧ Belongs s i seq)
    (hlisted : ∀ names, comp = .listed names → Snapshot key s names) :
    ZkInv key (s.complete i k comp) := by
  have hi := h.procs i
  refine zkInv_setProc h.nodes h.procs
    ⟨hi.base, fun path hp => hi.creates path (mem_of_mem_eraseIdx hp),
      fun path hp => hi.leaves path (mem_of_mem_eraseIdx hp), ?_, ?_, hi.myid, hi.lead⟩
  · intro path hp
    rcases mem_append.mp hp with hp | hp
    · exact hi.created path hp
    · exact hcreated path (mem_singleton.mp hp).symm
  intro names hp
  rcases mem_append.mp hp with hp | hp
  · exact hi.listed names hp
  · exact hlisted names (mem_singleton.mp hp).symm

theorem zkInv_serve {k : Nat} {names : List Bytes} (h : ZkInv key s)
    (hs : s.serve i k names = some s') : ZkInv key s' := by
  unfold Sys.serve at hs
  split at hs
  · cases hs
  · next path hreq =>
    split at hs
    · next hb =>
      cases hs
      have hpath : path = key ++ ascii "-" := (h.procs i).creates path (mem_of_getElem? hreq)
      have hg := grows_addNode s path (some i)
      refine zkInv_complete (s := s.addNode path (some i))
        ⟨nodesOk_addNode h.nodes hb (fun _ => hpath) (fun hh => by cases hh),
          fun j => (h.procs j).grows hg⟩ ?_ (fun _ hh => by cases hh)
      rintro _ ⟨⟩
      refine ⟨s.next, by rw [hpath]; rfl, ?_, fun nd hnd he => ?_⟩
      · show (s.next : Int) < ((s.next + 1 : Nat) : Int)
        omega
      rcases mem_append.mp hnd with hnd | hnd
      · have := h.nodes.seq nd hnd
        omega
      · rw [mem_singleton.mp hnd]
    · cases hs
  · split at hs
    · next hperm =>
      cases hs
      refine zkInv_complete h (fun _ hh => by cases hh) ?_
      rintro _ ⟨⟩
      exact snapshot_of_listing h.nodes hperm
    · cases hs
  · next path _ =>
    cases hs
    refine zkInv_complete (s := s.removeNode path)
      ⟨nodesOk_removeNode h.nodes, fun j => (h.procs j).grows (grows_removeNode s path)⟩
      (fun _ hh => by cases hh) (fun _ hh => by cases hh)

/-- **系の 1 step は不変条件を保つ。** -/
theorem zkStep_inv {l : ZkLabel ι} (h : ZkInv key s) (hs : zkStep key s l = some s') :
    ZkInv key s' := by
  cases l with
  | callback i env drawn input =>
    simp only [zkStep] at hs
    split at hs
    · cases hs
    rename_i hin
    obtain ⟨p', hrun, rfl⟩ := map_eq_some_iff.mp hs
    exact zkInv_setProc h.nodes h.procs (procOk_run (h.procs i) hrun
      fun e hr => faithful_of_local (Bool.eq_false_iff.mpr hin) hr)
  | serve i k names => exact zkInv_serve h hs
  | deliver i k env drawn =>
    simp only [zkStep] at hs
    split at hs
    · cases hs
    rename_i comp hcomp
    obtain ⟨p', hrun, rfl⟩ := map_eq_some_iff.mp hs
    have hi := h.procs i
    have hin : comp ∈ (s.procs i).comps := mem_of_getElem? hcomp
    have hi' : ProcOk key s i { s.procs i with comps := (s.procs i).comps.eraseIdx k } :=
      ⟨hi.base, hi.creates, hi.leaves, fun path hp => hi.created path (mem_of_mem_eraseIdx hp),
        fun names hp => hi.listed names (mem_of_mem_eraseIdx hp), hi.myid, hi.lead⟩
    exact zkInv_setProc h.nodes h.procs (procOk_run hi' hrun
      fun e hr => faithful_of_completion hi h.nodes hi.base hin hr)
  | vanish name =>
    cases hs
    exact ⟨nodesOk_removeNode h.nodes, fun j => (h.procs j).grows (grows_removeNode s name)⟩
  | foreign other =>
    simp only [zkStep] at hs
    split at hs
    · next hc =>
      cases hs
      exact ⟨nodesOk_addNode h.nodes hc.2.2 (fun hh => absurd rfl hh)
        (fun _ => hasPrefix_other hc.1 hc.2.1), fun j => (h.procs j).grows (grows_addNode ..)⟩
    · cases hs

omit [DecidableEq ι] in
theorem zkInv_initial (key : Bytes) (now : ι → Nat) : ZkInv key (initialSys key now) := by
  refine ⟨⟨Nat.zero_le _, ?_, ?_, ?_, ?_⟩, fun i => ⟨rfl, ?_, ?_, ?_, ?_, ?_, ?_⟩⟩
  all_goals simp [initialSys, initialCtx, create, Step.leads]

/-- member の znode が残っている -/
def Sys.hasZnode (s : Sys ι) (i : ι) : Prop :=
  ∃ nd ∈ s.nodes, nd.name = (s.procs i).ctx.member.fullpath

omit [DecidableEq ι] in
theorem znode_seq (h : ZkInv key s) (h0 : 0 ≤ (s.procs i).ctx.member.myid) (hn : s.hasZnode i) :
    ∃ nd ∈ s.nodes, nd.ours ∧ (nd.seq : Int) = (s.procs i).ctx.member.myid := by
  obtain ⟨nd, hnd, hname⟩ := hn
  have hpath : (s.procs i).ctx.member.fullpath =
      nodeName key (s.procs i).ctx.member.myid.toNat := by
    rw [fullpath, if_pos h0, (h.procs i).base, nodeName]
  rw [hpath] at hname
  have ho : nd.ours := by
    intro hnone
    have := h.nodes.foreign nd hnd (fun hh => hh hnone)
    rw [hname, hasPrefix_nodeName] at this
    cases this
  rw [h.nodes.ours nd hnd ho] at hname
  have hb := h.nodes.bound
  have hseq := h.nodes.seq nd hnd
  have hid := ((h.procs i).myid h0).1
  refine ⟨nd, hnd, ho, ?_⟩
  have := nodeName_inj (by omega) (by omega) hname
  omega

/-- **どの process がどの順に動いても、znode の残っている LEADER は高々一つ。** -/
theorem at_most_one_leader {now : ι → Nat} {j : ι}
    (h : Reachable (zkStep key) (initialSys key now) s)
    (hi : (s.procs i).ctx.member.step = .leader) (hj : (s.procs j).ctx.member.step = .leader)
    (hni : s.hasZnode i) (hnj : s.hasZnode j) : i = j := by
  have hinv : ZkInv key s := h.invariant (zkInv_initial key now) fun hI _ hst => zkStep_inv hI hst
  obtain ⟨h0i, hlei⟩ := (hinv.procs i).lead (by simp [hi, Step.leads])
  obtain ⟨h0j, hlej⟩ := (hinv.procs j).lead (by simp [hj, Step.leads])
  obtain ⟨nd, hnd, ho, hseq⟩ := znode_seq hinv h0i hni
  obtain ⟨nd', hnd', ho', hseq'⟩ := znode_seq hinv h0j hnj
  -- どちらの番号も、残っている znode の最小
  have hij := hlei nd' hnd' ho'
  have hji := hlej nd hnd ho
  have hown := ((hinv.procs i).myid h0i).2 nd hnd hseq
  have hown' := ((hinv.procs j).myid h0j).2 nd hnd (by omega)
  rw [hown] at hown'
  exact some.inj hown'

/-! ## LEADER の交代 -/

theorem zkStep_grows {l : ZkLabel ι} (hs : zkStep key s l = some s') : Grows s s' := by
  have hself : Grows s s := ⟨le_rfl, fun _ => .inl⟩
  have hset : ∀ {t : Sys ι} {i p}, Grows s t → Grows s (t.setProc i p) := fun h => ⟨h.next, h.nodes⟩
  cases l with
  | callback i env drawn input =>
    simp only [zkStep] at hs
    split at hs
    · cases hs
    obtain ⟨p', -, rfl⟩ := map_eq_some_iff.mp hs
    exact hset hself
  | serve i k names =>
    simp only [zkStep, Sys.serve] at hs
    split at hs
    · cases hs
    · split at hs
      · cases hs
        exact hset (grows_addNode ..)
      · cases hs
    · split at hs
      · cases hs
        exact hset hself
      · cases hs
    · cases hs
      exact hset (grows_removeNode ..)
  | deliver i k env drawn =>
    simp only [zkStep] at hs
    split at hs
    · cases hs
    obtain ⟨p', -, rfl⟩ := map_eq_some_iff.mp hs
    exact hset hself
  | vanish name =>
    cases hs
    exact grows_removeNode ..
  | foreign other =>
    simp only [zkStep] at hs
    split at hs
    · cases hs
      exact grows_addNode ..
    · cases hs

theorem grows_of_reach (h : Reachable (zkStep key) s s') : Grows s s' := by
  refine h.invariant (I := Grows s) ⟨le_rfl, fun _ => .inl⟩ fun hI _ hst => ?_
  have hst := zkStep_grows hst
  refine ⟨hI.next.trans hst.next, fun nd hnd => ?_⟩
  rcases hst.nodes nd hnd with hnd | hnew
  · exact hI.nodes nd hnd
  · exact .inr (hI.next.trans hnew)

/-- **LEADER は znode の番号の順に交代する。** -/
theorem leaders_in_order {now : ι → Nat} {j : ι}
    (h : Reachable (zkStep key) (initialSys key now) s) (hrun : Reachable (zkStep key) s s')
    (hi : (s.procs i).ctx.member.step = .leader) (hj : (s'.procs j).ctx.member.step = .leader)
    (hnj : s'.hasZnode j) : (s.procs i).ctx.member.myid ≤ (s'.procs j).ctx.member.myid ∧
      ((s.procs i).ctx.member.myid = (s'.procs j).ctx.member.myid → i = j) := by
  have hinv : ∀ {s}, Reachable (zkStep key) (initialSys key now) s → ZkInv key s :=
    fun h => h.invariant (zkInv_initial key now) fun hI _ hst => zkStep_inv hI hst
  have hpi := (hinv h).procs i
  have hpj := (hinv (h.trans hrun)).procs j
  obtain ⟨h0i, hlei⟩ := hpi.lead (by simp [hi, Step.leads])
  obtain ⟨h0j, -⟩ := hpj.lead (by simp [hj, Step.leads])
  obtain ⟨nd, hnd, ho, hseq⟩ := znode_seq (hinv (h.trans hrun)) h0j hnj
  obtain ⟨hlt, hown⟩ := hpi.myid h0i
  rcases (grows_of_reach hrun).nodes nd hnd with hold | hnew
  · refine ⟨hseq ▸ hlei nd hold ho, fun he => some.inj ?_⟩
    rw [← hown nd hold (hseq.trans he.symm)]
    exact (hpj.myid h0j).2 nd hnd hseq
  · -- 後から作られた znode の番号は大きい
    exact ⟨by omega, fun he => by omega⟩

end Step

/-! ## 具体的な run -/

/-- 2 つの process が加わり、先に加わった方が LEADER になる run -/
def duelRun : List (ZkLabel (Fin 2)) :=
  let env : Env := ⟨0, false, some [ascii "peer"], fun _ => true⟩
  let names := [ascii "B-0000000001", ascii "B-0000000000"]
  [.callback 0 env 0 .kickoff, .serve 0 0 [], .deliver 0 0 env 0,
    .callback 1 env 0 .kickoff, .serve 1 0 [], .deliver 1 0 env 0,
    .serve 0 0 names, .deliver 0 0 env 0, .serve 1 0 names, .deliver 1 0 env 0,
    .callback 0 env 0 (.endGetvers 2 (.ok (some ∅)) (.ok (some ∅)))]

theorem at_most_one_leader_duelRun : ∃ s : Sys (Fin 2),
    Reachable (zkStep (ascii "B")) (initialSys (ascii "B") fun _ => 0) s ∧
      (s.procs 0).ctx.member.step = .leader ∧ s.hasZnode 0 ∧
      (s.procs 1).ctx.member.step = .prelost ∧ s.hasZnode 1 ∧
      ∀ j, (s.procs j).ctx.member.step = .leader → s.hasZnode j → 0 = j := by
  obtain ⟨s, hs, h0, hz0, h1, hz1⟩ :
      ∃ s ∈ exec (zkStep (ascii "B")) (initialSys (ascii "B") fun _ => 0) duelRun,
        (s.procs 0).ctx.member.step = .leader ∧
        (∃ nd ∈ s.nodes, nd.name = (s.procs 0).ctx.member.fullpath) ∧
        (s.procs 1).ctx.member.step = .prelost ∧
        ∃ nd ∈ s.nodes, nd.name = (s.procs 1).ctx.member.fullpath := by
    decide +kernel
  have hreach := reachable_of_exec _ hs
  exact ⟨s, hreach, h0, hz0, h1, hz1, fun j hj hzj => at_most_one_leader hreach h0 hj hz0 hzj⟩

/-- LEADER の znode が消え、もう 1 つの process が LEADER になる run -/
def successionRun : List (ZkLabel (Fin 2)) :=
  let env : Env := ⟨0, false, some [ascii "peer"], fun _ => true⟩
  [.vanish (ascii "B-0000000000"), .callback 1 env 0 .masterChange,
    .serve 1 0 [ascii "B-0000000001"], .deliver 1 0 env 0,
    .callback 1 env 0 (.endGetvers 3 (.ok (some ∅)) (.ok (some ∅)))]

theorem leaders_in_order_successionRun : ∃ s s' : Sys (Fin 2),
    Reachable (zkStep (ascii "B")) (initialSys (ascii "B") fun _ => 0) s ∧
      Reachable (zkStep (ascii "B")) s s' ∧ (s.procs 0).ctx.member.step = .leader ∧
      (s'.procs 1).ctx.member.step = .leader ∧
      (s.procs 0).ctx.member.myid < (s'.procs 1).ctx.member.myid := by
  obtain ⟨s, hs, h0, s', hs', h1, hz1⟩ :
      ∃ s ∈ exec (zkStep (ascii "B")) (initialSys (ascii "B") fun _ => 0) duelRun,
        (s.procs 0).ctx.member.step = .leader ∧
        ∃ s' ∈ exec (zkStep (ascii "B")) s successionRun, (s'.procs 1).ctx.member.step = .leader ∧
          ∃ nd ∈ s'.nodes, nd.name = (s'.procs 1).ctx.member.fullpath := by
    decide +kernel
  have hs := reachable_of_exec _ hs
  have hs' := reachable_of_exec _ hs'
  obtain ⟨hle, hne⟩ := leaders_in_order hs hs' h0 h1 hz1
  exact ⟨s, s', hs, hs', h0, h1, lt_of_le_of_ne hle fun h => absurd (hne h) (by decide)⟩

end Redcurrant.Sqliterepo.Election
