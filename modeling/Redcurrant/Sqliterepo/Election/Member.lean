import Redcurrant.Sqliterepo.Version

/-!
# 選挙の member とその操作

`sqliterepo/election.c` の member（`struct election_member_s`）と、member を書き換える関数。
-/

namespace Redcurrant.Sqliterepo.Election

open Infra

/-! ## 状態 -/

/-- `enum election_step_e` -/
inductive Step
  | none | candreq | candok | leaving | prelost | prelead | lost | leader | failed
  deriving DecidableEq

/-- `struct election_member_s`。`lastStatus` は micro 秒、`lastUse` は秒。 -/
structure Member where
  key : Bytes
  lastStatus : Nat
  myid : Int
  masterUrl : Option Bytes
  masterId : Int
  (lastUse reqidUse reqidPipefrom reqidGetvers concurrentGetvers errorsGetvers pendingGetvers : Nat)
  (sentGetvers pendingUse : Nat)
  step : Step
  (requestedUse requestedPipefrom pendingPipefrom : Bool)
  deriving DecidableEq

/-- 外へ出る依頼。ZooKeeper への依頼は path を、peer への依頼は request id を持つ。 -/
inductive Request
  | use (reqid : Nat) (peers : List Bytes)
  | pipefrom (reqid : Nat) (source : Bytes)
  | getvers (reqid : Nat) (peers : List Bytes)
  | create (path : Bytes)
  | watch (path : Bytes)
  | list (path : Bytes)
  | ask (path : Bytes)
  | leave (path : Bytes)
  deriving DecidableEq

/-- ZooKeeper の非同期呼び出しの種類 -/
inductive ZkCall
  | create | watch | list | ask | leave
  deriving DecidableEq

/-- 一つの遷移の環境。`peers` は `get_peers` の結果で、error なら `none`。 -/
structure Env where
  now : Nat
  exiting : Bool
  peers : Option (List Bytes)
  zkOk : ZkCall → Bool

variable (env : Env)

/-- `time(0)` -/
def Env.time : Nat := env.now / 1000000

/-- 遷移が書き換えるもの。`nextId` は request id の counter。 -/
structure Ctx where
  member : Member
  nextId : Nat
  sent : List Request
  deriving DecidableEq

/-! ## manager の設定

`election_manager_create` の値で、単位は秒。
-/

def delayRestartFailed : Nat := 2
def delayMaxIdle : Nat := 30
def delayPingFailed : Nat := 2
def delayPingPending : Nat := 2
def delayPingFinal : Nat := 300

/-! ## member の操作 -/

namespace Member

/-- `member_create` -/
def create (key : Bytes) (now : Nat) : Member where
  key := key
  lastStatus := now
  myid := -1
  masterUrl := none
  masterId := -1
  lastUse := 0
  reqidUse := 0
  reqidPipefrom := 0
  reqidGetvers := 0
  concurrentGetvers := 0
  errorsGetvers := 0
  pendingGetvers := 0
  sentGetvers := 0
  pendingUse := 0
  step := .none
  requestedUse := false
  requestedPipefrom := false
  pendingPipefrom := false

variable (m : Member)

/-- `member_has_action` -/
def hasAction : Bool := m.pendingGetvers != 0 || m.pendingPipefrom || m.requestedPipefrom

/-- `member_set_master_url` -/
def setMasterUrl (u : Option Bytes) : Member := { m with masterUrl := u }

/-- `member_reset_master` -/
def resetMaster : Member := { m with masterId := -1, masterUrl := none }

/-- `member_reset_pending`。`requested_PIPEFROM` は残る。 -/
def resetPending : Member :=
  { m with
    sentGetvers := 0, concurrentGetvers := 0, errorsGetvers := 0, reqidGetvers := 0,
    reqidPipefrom := 0, pendingGetvers := 0, pendingPipefrom := false }

/-- `member_reset` -/
def reset : Member := { m.resetMaster.resetPending with myid := -1 }

/-- `member_set_id` -/
def setId (id : Int) : Member := { m with myid := id }

/-- `member_set_status` -/
def setStatus (env : Env) (s : Step) : Member := { m with lastStatus := env.now, step := s }

/-- `member_set_master_id` -/
def setMasterId (id : Int) : Member :=
  { m with masterUrl := if id ≠ m.masterId then none else m.masterUrl, masterId := id }

/-- `member_fullpath` -/
def fullpath : Bytes :=
  if 0 ≤ m.myid then m.key ++ ascii "-" ++ decPad m.myid.toNat else m.key ++ ascii "-"

/-- `member_masterpath` -/
def masterpath : Option Bytes :=
  if m.masterId < 0 then none else some (m.key ++ ascii "-" ++ decPad m.masterId.toNat)

/-- `member_in_group` -/
def inGroup (ids : List Int) : Bool :=
  if m.myid < 0 then false else ids.contains m.myid

/-- `member_group_master` -/
def groupMaster (ids : List Int) : Bool :=
  if m.myid < 0 then false else ids.head? == some m.myid

/-- `member_pending_for_too_long` -/
def pendingForTooLong (env : Env) : Bool :=
  match m.step with
  | .candreq | .candok | .prelost | .prelead =>
    decide (m.lastStatus + delayMaxIdle * 1000000 < env.now)
  | _ => false

/-- `member_failed_for_too_long` -/
def failedForTooLong (env : Env) : Bool :=
  m.step == .failed && decide (m.lastStatus + delayRestartFailed * 1000000 < env.now)

/-- `member_ping_delay` -/
def pingDelay : Nat :=
  match m.step with
  | .candreq | .candok | .prelost | .prelead => delayPingPending
  | .failed => delayPingFailed
  | _ => delayPingFinal

/-- `member_RESYNC_if_not_pending` -/
def resyncIfNotPending : Member :=
  if m.pendingPipefrom then m else { m with requestedPipefrom := true }

/-- `member_concerned_by_GETVERS` が真のときの数え下げ -/
def countGetvers : Member :=
  if 0 < m.pendingGetvers then
    { m with
      pendingGetvers := m.pendingGetvers - 1,
      reqidGetvers := if m.pendingGetvers - 1 = 0 then 0 else m.reqidGetvers }
  else m

end Member

/-! ## 依頼を出す操作 -/

namespace Ctx

def update (c : Ctx) (f : Member → Member) : Ctx := { c with member := f c.member }

def send (c : Ctx) (r : Request) : Ctx := { c with sent := c.sent ++ [r] }

/-- `member_set_status` -/
def setStatus (c : Ctx) (env : Env) (s : Step) : Ctx := c.update (·.setStatus env s)

end Ctx

variable (c : Ctx)

/-- `defer_USE`。`get_peers` が失敗したときだけ偽を返す。 -/
def deferUse : Bool × Ctx :=
  match env.peers with
  | none => (false, c)
  | some peers =>
    if peers.isEmpty || c.member.pendingUse != 0 then (true, c)
    else
      (true,
        { member :=
            { c.member with
              lastUse := env.time, pendingUse := peers.length, reqidUse := c.nextId + 1 }
          nextId := c.nextId + 1
          sent := c.sent ++ [.use (c.nextId + 1) peers] })

def deferPipefrom (source : Bytes) (c : Ctx) : Ctx :=
  if c.member.pendingPipefrom then c
  else
    { member :=
        { c.member with
          reqidPipefrom := c.nextId + 1, requestedPipefrom := false, pendingPipefrom := true }
      nextId := c.nextId + 1
      sent := c.sent ++ [.pipefrom (c.nextId + 1) source] }

/-- `defer_GETVERS`。`get_peers` が失敗すると、前の回を残して戻る。 -/
def deferGetvers : Ctx :=
  match env.peers with
  | none => c
  | some peers =>
    { member :=
        { c.member with
          sentGetvers := peers.length, pendingGetvers := peers.length,
          reqidGetvers := c.nextId + 1 }
      nextId := c.nextId + 1
      sent := c.sent ++ [.getvers (c.nextId + 1) peers] }

def becomeLeaver : Ctx :=
  let c := c.update fun m => m.resetMaster.resetPending.setStatus env .leaving
  if env.zkOk .leave then c.send (.leave c.member.fullpath) else c.setStatus env .failed

def becomeCandidate : Ctx :=
  let c := c.update fun m => m.resetMaster.setStatus env .candok
  if env.zkOk .list then c.send (.list c.member.fullpath) else c.setStatus env .failed

def restartElection : Ctx :=
  if 0 < c.member.myid then becomeLeaver env c
  else
    let c := c.update Member.reset
    if env.exiting then c.setStatus env .none
    else
      let c := c.update fun m => { m with requestedUse := false }.setStatus env .candreq
      match deferUse env c with
      | (false, c) => c.setStatus env .failed
      | (true, c) =>
        if env.zkOk .create then c.send (.create c.member.fullpath) else c.setStatus env .failed

def manageList (ids : List Int) (c : Ctx) : Ctx :=
  let c := c.setStatus env .candok
  if !c.member.inGroup ids then restartElection env c
  else if c.member.groupMaster ids then
    deferGetvers env (c.update fun m => (m.setMasterId m.myid).setStatus env .prelead)
  else
    let c := c.update fun m => (m.setMasterId (ids.headD (-1))).setStatus env .prelost
    match c.member.masterpath with
    | none => becomeLeaver env c
    | some path =>
      if env.zkOk .ask then deferGetvers env (c.send (.ask path)) else becomeLeaver env c

/-- `member_finish_PRELOST` -/
def finishPrelost : Ctx :=
  if c.member.hasAction then c
  else
    let errors := c.member.errorsGetvers
    let concurrent := c.member.concurrentGetvers
    let c := c.update fun m => { m with errorsGetvers := 0, concurrentGetvers := 0 }
    if 1 < errors then becomeLeaver env c
    else if 1 < concurrent then c.update Member.resyncIfNotPending
    else if c.member.masterUrl.isSome then c.setStatus env .lost
    else c

/-- `member_finish_PRELEAD` -/
def finishPrelead : Ctx :=
  if c.member.hasAction then c
  else
    let errors := c.member.errorsGetvers
    let concurrent := c.member.concurrentGetvers
    let c := c.update fun m => { m with errorsGetvers := 0, concurrentGetvers := 0 }
    if 1 < errors then becomeLeaver env c
    else if 1 < concurrent then becomeLeaver env c
    else c.setStatus env .leader

def memberPing : Ctx :=
  if c.member.lastUse = 0 ∨ c.member.lastUse + c.member.pingDelay < env.time ∨
      env.time < c.member.lastUse then
    match deferUse env c with
    | (false, c) => becomeLeaver env c
    | (true, c) => c
  else c

theorem Member.groupMaster_iff {m : Member} {ids : List Int} :
    m.groupMaster ids = true ↔ 0 ≤ m.myid ∧ ids.head? = some m.myid := by
  unfold Member.groupMaster
  split
  · next h => simp [Int.not_le.mpr h]
  · next h => simp [Int.not_lt.mp h]

theorem Member.inGroup_iff {m : Member} {ids : List Int} :
    m.inGroup ids = true ↔ 0 ≤ m.myid ∧ m.myid ∈ ids := by
  unfold Member.inGroup
  split
  · next h => simp [Int.not_le.mpr h]
  · next h => simp [Int.not_lt.mp h]

/-! ## 依頼を出す操作が変えないもの

`defer_*` は選挙の役割に関わる field を変えない。
-/

section Frame

variable (env : Env) (c : Ctx)

@[simp] theorem deferUse_step : (deferUse env c).2.member.step = c.member.step := by
  unfold deferUse; split <;> (try split) <;> rfl

@[simp] theorem deferUse_myid : (deferUse env c).2.member.myid = c.member.myid := by
  unfold deferUse; split <;> (try split) <;> rfl

@[simp] theorem deferUse_masterId : (deferUse env c).2.member.masterId = c.member.masterId := by
  unfold deferUse; split <;> (try split) <;> rfl

@[simp] theorem deferUse_masterUrl : (deferUse env c).2.member.masterUrl = c.member.masterUrl := by
  unfold deferUse; split <;> (try split) <;> rfl

@[simp] theorem deferUse_key : (deferUse env c).2.member.key = c.member.key := by
  unfold deferUse; split <;> (try split) <;> rfl

@[simp] theorem deferGetvers_step : (deferGetvers env c).member.step = c.member.step := by
  unfold deferGetvers; split <;> rfl

@[simp] theorem deferGetvers_myid : (deferGetvers env c).member.myid = c.member.myid := by
  unfold deferGetvers; split <;> rfl

@[simp] theorem deferGetvers_masterId :
    (deferGetvers env c).member.masterId = c.member.masterId := by
  unfold deferGetvers; split <;> rfl

@[simp] theorem deferGetvers_masterUrl :
    (deferGetvers env c).member.masterUrl = c.member.masterUrl := by
  unfold deferGetvers; split <;> rfl

@[simp] theorem deferGetvers_key : (deferGetvers env c).member.key = c.member.key := by
  unfold deferGetvers; split <;> rfl

end Frame

end Redcurrant.Sqliterepo.Election
