import Mathlib.Data.List.Sort
import Redcurrant.Sqliterepo.Election.Member

/-!
# 選挙の状態遷移

`_transition` を `member->step` ごとの関数に分けて書く。callback は `Input` である。
-/

namespace Redcurrant.Sqliterepo.Election

open Infra Metautils

/-! ## event -/

/-- `enum event_type_e` と、その引数 -/
inductive Event
  | none
  | disconnected
  | exiting
  | getversOk (reqid : Nat)
  | getversOutdated (reqid : Nat)
  | getversConcurrent (reqid : Nat)
  | getversError (reqid : Nat)
  | useRes (reqid : Nat)
  | createOk (id : Int)
  | createKo
  | nodeLeft
  | masterKo
  | masterEmpty
  | masterOk (url : Bytes)
  | masterChange
  | resyncReq
  | resyncDone (reqid : Nat)
  | listOk (ids : List Int)
  | listKo
  | leaveOk
  | leaveKo
  deriving DecidableEq

/-! ## `_transition` -/

variable (evt : Event) (env : Env) (c : Ctx)

/-- 最初の `switch (evt)` の `EVT_USE_RES` と `EVT_RESYNC_DONE` の処理 -/
def acknowledge (m : Member) : Member :=
  match evt with
  | .useRes reqid =>
    let m := if reqid = m.reqidUse ∧ 0 < m.pendingUse then
      { m with pendingUse := m.pendingUse - 1 } else m
    if m.pendingUse = 0 then { m with reqidUse := 0 } else m
  | .resyncDone reqid =>
    if reqid = m.reqidPipefrom then { m with pendingPipefrom := false, reqidPipefrom := 0 } else m
  | _ => m

def onNone (evt : Event) (c : Ctx) : Ctx :=
  match evt with
  | .none | .resyncReq => restartElection env c
  | _ => c

def onCandreq (evt : Event) (c : Ctx) : Ctx :=
  match evt with
  | .resyncReq => c.update Member.resyncIfNotPending
  | .exiting => becomeLeaver env c
  | .createOk id =>
    let c := c.update (·.setId id)
    if env.zkOk .watch then becomeCandidate env (c.send (.watch c.member.fullpath))
    else c.setStatus env .failed
  | .createKo => c.setStatus env .failed
  | _ => c

def onCandok (evt : Event) (c : Ctx) : Ctx :=
  match evt with
  | .none => memberPing env c
  | .resyncReq => c.update Member.resyncIfNotPending
  | .exiting => becomeLeaver env c
  | .listOk ids => manageList env ids c
  | .listKo | .nodeLeft => becomeCandidate env c
  | _ => c

/-- `EVT_NONE` を受けた PRELOST と PRELEAD。返事が遅ければやり直す。 -/
def retryGetvers : Ctx :=
  if c.member.pendingForTooLong env then
    (deferGetvers env c).update fun m => { m with lastStatus := env.now }
  else memberPing env c

def onPrelost (evt : Event) (c : Ctx) : Ctx :=
  match evt with
  | .none => retryGetvers env c
  | .resyncReq => c.update Member.resyncIfNotPending
  | .disconnected | .useRes _ => c
  | .createOk _ | .createKo | .leaveOk | .leaveKo | .listOk _ | .listKo | .nodeLeft | .masterKo
  | .masterEmpty | .masterChange => becomeCandidate env c
  | .exiting => becomeLeaver env c
  | .masterOk url => finishPrelost env (c.update (·.setMasterUrl (some url)))
  | .getversOk reqid =>
    if reqid = c.member.reqidGetvers then finishPrelost env (c.update Member.countGetvers) else c
  | .getversOutdated reqid =>
    if reqid = c.member.reqidGetvers then
      c.update fun m => m.countGetvers.resyncIfNotPending
    else c
  | .getversConcurrent reqid =>
    if reqid = c.member.reqidGetvers then
      finishPrelost env (c.update fun m =>
        { m.countGetvers with concurrentGetvers := m.concurrentGetvers + 1 })
    else c
  | .getversError reqid =>
    if reqid = c.member.reqidGetvers then
      finishPrelost env (c.update fun m =>
        { m.countGetvers with errorsGetvers := m.errorsGetvers + 1 })
    else c
  | .resyncDone _ =>
    if !c.member.hasAction && c.member.masterUrl.isSome then c.setStatus env .lost else c

def onPrelead (evt : Event) (c : Ctx) : Ctx :=
  match evt with
  | .none => retryGetvers env c
  | .resyncReq | .exiting => becomeLeaver env c
  | .disconnected | .useRes _ => c
  | .createOk _ | .createKo | .nodeLeft | .masterOk _ | .masterKo | .listOk _ | .listKo | .leaveOk
  | .leaveKo | .masterEmpty | .masterChange | .resyncDone _ => becomeCandidate env c
  | .getversOutdated reqid =>
    if reqid = c.member.reqidGetvers then becomeLeaver env (c.update Member.countGetvers) else c
  | .getversOk reqid =>
    if reqid = c.member.reqidGetvers then finishPrelead env (c.update Member.countGetvers) else c
  | .getversConcurrent reqid =>
    if reqid = c.member.reqidGetvers then
      finishPrelead env (c.update fun m =>
        { m.countGetvers with concurrentGetvers := m.concurrentGetvers + 1 })
    else c
  | .getversError reqid =>
    if reqid = c.member.reqidGetvers then
      finishPrelead env (c.update fun m =>
        { m.countGetvers with errorsGetvers := m.errorsGetvers + 1 })
    else c

def onLeaving (evt : Event) (c : Ctx) : Ctx :=
  match evt with
  | .none => if env.exiting then c else c.update fun m => { m with requestedUse := true }
  | .resyncReq => c.update Member.resyncIfNotPending
  | .leaveOk => (c.update Member.reset).setStatus env .none
  | .leaveKo => becomeLeaver env c
  | _ => c

def onLost (evt : Event) (c : Ctx) : Ctx :=
  match evt with
  | .none => memberPing env c
  -- `EVT_NODE_LEFT` は `manage_deleted` を通るが、log の他は同じ
  | .exiting | .nodeLeft => becomeLeaver env c
  | .masterKo | .masterEmpty | .masterChange => becomeCandidate env c
  | .resyncReq => (c.update fun m => { m with requestedPipefrom := true }).setStatus env .prelost
  | _ => c

def onLeader (evt : Event) (c : Ctx) : Ctx :=
  match evt with
  | .none => memberPing env c
  | .resyncReq | .exiting | .nodeLeft => becomeLeaver env c
  | _ => c

def onFailed (evt : Event) (c : Ctx) : Ctx :=
  match evt with
  | .none => if c.member.failedForTooLong env then restartElection env c else memberPing env c
  | .resyncReq => restartElection env (c.update Member.resyncIfNotPending)
  | .createKo | .nodeLeft => (c.update Member.reset).setStatus env .failed
  | _ => c

/-- 二つ目の `switch`。`member->step` で分かれる。 -/
def dispatch (evt : Event) (c : Ctx) : Ctx :=
  match c.member.step with
  | .none => onNone env evt c
  | .candreq => onCandreq env evt c
  | .candok => onCandok env evt c
  | .prelost => onPrelost env evt c
  | .prelead => onPrelead env evt c
  | .leaving => onLeaving env evt c
  | .lost => onLost env evt c
  | .leader => onLeader env evt c
  | .failed => onFailed env evt c

def transition' (evt : Event) (c : Ctx) : Ctx :=
  if evt = .disconnected then (c.update Member.reset).setStatus env .failed
  else dispatch env evt (c.update (acknowledge evt))

/-- `transition` の終わりの、求められていた PIPEFROM の送出 -/
def flushPipefrom : Ctx :=
  match c.member.requestedPipefrom, c.member.masterUrl with
  | true, some source => deferPipefrom source c
  | _, _ => c

/-- `transition` の終わりの、求められていた選挙の再開 -/
def flushUse : Ctx :=
  if c.member.requestedUse ∧ c.member.step = .none then restartElection env c else c

def transition (evt : Event) (c : Ctx) : Ctx := flushUse env (flushPipefrom (transition' env evt c))

/-! ## callback -/

/-- GETVERS の返事が伝えること -/
inductive Verdict
  | ok | outdated | concurrent | error
  deriving DecidableEq

def Verdict.event (v : Verdict) (reqid : Nat) : Event :=
  match v with
  | .ok => .getversOk reqid
  | .outdated => .getversOutdated reqid
  | .concurrent => .getversConcurrent reqid
  | .error => .getversError reqid

def Verdict.count (v : Verdict) (m : Member) : Member :=
  match v with
  | .ok | .outdated => m.countGetvers
  | .concurrent => { m.countGetvers with concurrentGetvers := m.concurrentGetvers + 1 }
  | .error => { m.countGetvers with errorsGetvers := m.errorsGetvers + 1 }

/-- `on_end_GETVERS` が返事と手元の version から作る error -/
def getversError (reply loc : Except GError (Option VersionTree)) : Option GError :=
  match reply with
  | .error e => some e
  | .ok none => some ⟨500, "BUG: no version received"⟩
  | .ok (some vremote) =>
    match loc with
    | .error e => some e
    | .ok none => some ⟨500, "BUG: no version loaded"⟩
    | .ok (some vlocal) =>
      match versionValidateDiff vlocal vremote with
      | (some e, _) => if e.code = codePipeto then none else some e
      | (none, worst) => if worst < 0 then some ⟨codePipefrom, "One diff missed"⟩ else none

/-- `on_end_GETVERS` の event の選び方 -/
def getversVerdict (reply loc : Except GError (Option VersionTree)) : Verdict :=
  match getversError reply loc with
  | none => .ok
  | some e =>
    if e.code = codePipefrom then .outdated
    else if e.code = codeConcurrent then .concurrent
    else .error

def nodevToInt64v (names : List Bytes) (key : Bytes) : List Int :=
  ((names.filter (hasPrefix · key)).filterMap fun s => (afterLast 45 s).map strtoll).insertionSort
    (· ≤ ·)

/-- member が受ける callback と命令 -/
inductive Input
  | kickoff
  | resync
  | exit
  | endUse (reqid : Nat)
  | endPipefrom
  | endGetvers (reqid : Nat) (reply loc : Except GError (Option VersionTree))
  | askMaster (zrc : Int) (value : Bytes)
  | listGroup (zrc : Int) (names : List Bytes)
  | leaveElection (zrc : Int)
  | watchNode (zrc : Int)
  | startElection (zrc : Int) (path : Option Bytes)
  | masterChange
  | nodeChange

/-- callback がすること。`abort` は process の停止。 -/
inductive Outcome
  | abort
  | ignored
  | event (evt : Event)
  deriving DecidableEq

def zNoNode : Int := -101

/-- `transition_error`。API の error は event に、system の error は切断になる。 -/
def transitionError (zrc : Int) : Outcome :=
  if zrc < -100 then .event evt
  else if zrc < -1 then .event .disconnected
  else .abort

/-- callback が起こす event -/
def Input.outcome (m : Member) : Input → Outcome
  | .kickoff => .event .none
  | .resync => .event .resyncReq
  | .exit => .event .exiting
  | .endUse reqid => .event (.useRes reqid)
  -- `on_end_PIPEFROM` は、member が今持っている id を渡す
  | .endPipefrom => .event (.resyncDone m.reqidPipefrom)
  | .endGetvers reqid reply loc => .event ((getversVerdict reply loc).event reqid)
  | .askMaster zrc value =>
    if zrc ≠ 0 then transitionError .masterKo zrc
    else if cstr value = [] then .event .masterEmpty
    else .event (.masterOk (cstr value))
  | .listGroup zrc names =>
    if zrc ≠ 0 then transitionError .listKo zrc
    else .event (.listOk (nodevToInt64v names m.key))
  | .leaveElection zrc =>
    if zrc = 0 ∨ zrc = zNoNode then .event .leaveOk else transitionError .leaveKo zrc
  | .watchNode zrc =>
    if zrc = 0 then .ignored
    else if zrc = zNoNode then .event .nodeLeft
    else transitionError .none zrc
  | .startElection zrc path =>
    if zrc ≠ 0 then transitionError .createKo zrc
    else
      match path with
      | none => .event .createKo
      | some p =>
        match afterLast 45 p with
        | none => .abort
        | some s => .event (.createOk (strtoll s))
  | .masterChange => if env.exiting then .ignored else .event .masterChange
  | .nodeChange => if env.exiting then .ignored else .event .nodeLeft

/-- callback を一つ処理する。process が止まるときは `none`。 -/
def handle (inp : Input) (c : Ctx) : Option Ctx :=
  match inp.outcome env c.member with
  | .abort => none
  | .ignored => some c
  | .event evt => some (transition env evt c)

/-- member の run の 1 step。`drawn` は同じ process の他の member が使った id の数。 -/
structure Label where
  env : Env
  input : Input
  drawn : Nat

def memberStep (l : Label) : Option Ctx :=
  handle l.env l.input { c with nextId := c.nextId + l.drawn, sent := [] }

def initialCtx (key : Bytes) (now : Nat) : Ctx := ⟨Member.create key now, 0, []⟩

end Redcurrant.Sqliterepo.Election
