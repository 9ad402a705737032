import Redcurrant.Infra.Run
import Redcurrant.Sqliterepo.Election.Acts

/-!
# member と peer への依頼

一つの member と、返事の来ていない GETVERS・PIPEFROM の系。返事はどの順でどれだけ遅れて来てもよい。
-/

namespace Redcurrant.Sqliterepo.Election

open Infra

/-- GETVERS の一回分 -/
structure Round where
  reqid : Nat
  peers : List Bytes
  replies : List (Bytes × Verdict)
  deriving DecidableEq

/-- member と、返事を待っている依頼 -/
structure Net where
  ctx : Ctx
  asked : List (Nat × Bytes)
  round : Option Round
  pipes : List Nat
  lastPipe : Option Nat
  deriving DecidableEq

/-- 系の 1 step で起こること -/
inductive NetLabel
  | callback (env : Env) (drawn : Nat) (input : Input)
  | reply (env : Env) (drawn : Nat) (reqid : Nat) (peer : Bytes)
      (reply loc : Except GError (Option VersionTree))
  | pipeDone (env : Env) (drawn : Nat) (id : Nat)

/-- 出された依頼を記録する -/
def Net.absorb (n : Net) : Request → Net
  | .getvers r peers =>
    { n with asked := n.asked ++ peers.map (r, ·), round := some ⟨r, peers, []⟩ }
  | .pipefrom r _ => { n with pipes := n.pipes ++ [r], lastPipe := some r }
  | _ => n

/-- 遷移の前。他の member が id を使い、依頼は空。 -/
def Net.start (n : Net) (drawn : Nat) : Ctx :=
  { n.ctx with nextId := n.ctx.nextId + drawn, sent := [] }

/-- 遷移した後の系。出された依頼を記録する。 -/
def Net.after (n : Net) (c : Ctx) : Net := c.sent.foldl Net.absorb { n with ctx := c }

def Net.run (n : Net) (env : Env) (drawn : Nat) (input : Input) : Option Net :=
  (handle env input (n.start drawn)).map n.after

/-- 最後の回への返事なら記録する -/
def Net.record (n : Net) (reqid : Nat) (peer : Bytes) (v : Verdict) : Net :=
  { n with
    asked := n.asked.erase (reqid, peer),
    round := n.round.map fun r =>
      if r.reqid = reqid then { r with replies := r.replies ++ [(peer, v)] } else r }

/-- 系の 1 step。返事は待っている依頼にだけ来る。 -/
def netStep (n : Net) : NetLabel → Option Net
  | .callback env drawn input =>
    match input with
    | .endGetvers .. | .endPipefrom => none
    | input => n.run env drawn input
  | .reply env drawn reqid peer reply loc =>
    if (reqid, peer) ∈ n.asked then
      (n.record reqid peer (getversVerdict reply loc)).run env drawn (.endGetvers reqid reply loc)
    else none
  | .pipeDone env drawn id =>
    if id ∈ n.pipes then
      { n with pipes := n.pipes.erase id }.run env drawn .endPipefrom
    else none

def initialNet (key : Bytes) (now : Nat) : Net := ⟨initialCtx key now, [], none, [], none⟩

/-! ## 出された依頼のうち、GETVERS と PIPEFROM -/

def getversSent (l : List Request) : List (Nat × List Bytes) :=
  l.filterMap fun
    | .getvers r peers => some (r, peers)
    | _ => none

def pipesSent (l : List Request) : List Nat :=
  l.filterMap fun
    | .pipefrom r _ => some r
    | _ => none

@[simp] theorem getversSent_append (a b : List Request) :
    getversSent (a ++ b) = getversSent a ++ getversSent b := List.filterMap_append

variable {n n' : Net} {env : Env} {drawn : Nat} {input : Input}

@[simp] theorem foldl_absorb_ctx (l : List Request) (n : Net) :
    (l.foldl Net.absorb n).ctx = n.ctx := by
  induction l generalizing n with
  | nil => rfl
  | cons r l ih => rw [List.foldl_cons, ih]; cases r <;> rfl

theorem foldl_absorb_getvers (l : List Request) (n : Net) : (l.foldl Net.absorb n).asked =
      n.asked ++ ((getversSent l).map fun p => p.2.map (p.1, ·)).flatten ∧
    (l.foldl Net.absorb n).round = match (getversSent l).getLast? with
      | some p => some ⟨p.1, p.2, []⟩
      | none => n.round := by
  induction l generalizing n with
  | nil => simp [getversSent]
  | cons r l ih =>
    rw [List.foldl_cons]
    obtain ⟨ha, hr⟩ := ih (n.absorb r)
    rw [ha, hr]
    cases r with
    | getvers id peers =>
      have hc : getversSent (.getvers id peers :: l) = (id, peers) :: getversSent l := rfl
      rw [hc, List.getLast?_cons]
      refine ⟨by simp [Net.absorb], ?_⟩
      cases (getversSent l).getLast? <;> rfl
    | _ => exact ⟨rfl, rfl⟩

theorem foldl_absorb_pipes (l : List Request) (n : Net) :
    (l.foldl Net.absorb n).pipes = n.pipes ++ pipesSent l ∧
      (l.foldl Net.absorb n).lastPipe = ((pipesSent l).getLast?).or n.lastPipe := by
  induction l generalizing n with
  | nil => simp [pipesSent]
  | cons r l ih =>
    rw [List.foldl_cons]
    obtain ⟨hp, hl⟩ := ih (n.absorb r)
    rw [hp, hl]
    cases r with
    | pipefrom id source =>
      have hc : pipesSent (.pipefrom id source :: l) = id :: pipesSent l := rfl
      rw [hc, List.getLast?_cons]
      refine ⟨by simp [Net.absorb], ?_⟩
      cases (pipesSent l).getLast? <;> rfl
    | _ => exact ⟨rfl, rfl⟩

@[simp] theorem after_ctx (n : Net) (c : Ctx) : (n.after c).ctx = c := by simp [Net.after]

theorem run_cases (h : n.run env drawn input = some n') :
    (input.outcome env n.ctx.member = .ignored ∧ n' = n.after (n.start drawn)) ∨
      ∃ evt, input.outcome env n.ctx.member = .event evt ∧
        n' = n.after (transition env evt (n.start drawn)) := by
  obtain ⟨c, hc, rfl⟩ := Option.map_eq_some_iff.mp h
  unfold handle at hc
  split at hc
  · cases hc
  · next ho => cases hc; exact .inl ⟨ho, rfl⟩
  · next evt ho => cases hc; exact .inr ⟨evt, ho, rfl⟩

theorem netStep_callback (h : netStep n (.callback env drawn input) = some n') :
    (∀ r reply loc, input ≠ .endGetvers r reply loc) ∧ input ≠ .endPipefrom ∧
      n.run env drawn input = some n' := by
  cases input <;> simp_all [netStep]

variable {m : Member} {evt : Event} (ho : input.outcome env m = .event evt)
include ho

theorem outcome_ne_reply (hi : ∀ r reply loc, input ≠ .endGetvers r reply loc) (v : Verdict)
    (reqid : Nat) :
    evt ≠ v.event reqid := by
  intro he
  cases outcome_raises ho with
  | endGetvers => exact hi _ _ _ rfl
  | _ => cases v <;> cases he

theorem outcome_ne_resyncDone (hi : input ≠ .endPipefrom) (r : Nat) : evt ≠ .resyncDone r := by
  intro he
  cases outcome_raises ho with
  | endPipefrom => exact hi rfl
  | @endGetvers r' reply loc => cases hv : getversVerdict reply loc <;> rw [hv] at he <;> cases he
  | _ => cases he

end Redcurrant.Sqliterepo.Election
