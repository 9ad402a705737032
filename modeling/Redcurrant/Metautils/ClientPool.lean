import Redcurrant.Infra.Run
import Redcurrant.Metautils.GriddClient

/-!
# gridd の client の pool

client は列に入り、終わるまで react し、end callback が呼ばれる。callback は client の error だけを見る。
-/

namespace Redcurrant.Metautils

open Infra Sqliterepo Function List

/-! ## pool -/

/-- `struct event_client_s`。`id` は client を見分ける。 -/
structure EventClient where
  id : Nat
  client : Client
  deriving DecidableEq

/-- `struct gridd_client_pool_s`。`ended` は end callback の見た client。 -/
structure Pool where
  active : Nat → Option EventClient
  pending : List EventClient
  lastTimeoutCheck : Int
  activeSize : Nat
  (activeMax activeCount : Int)
  ended : List EventClient

/-- `gridd_client_pool_create` -/
def Pool.create (limit : Nat) : Pool := ⟨fun _ => none, [], 0, limit, limit, 0, []⟩

structure PollEvent where
  (readable writable error hangup : Bool)

variable (s : Pool) (ec : EventClient)

/-- `event_client_free` -/
def Pool.free : Pool := { s with ended := s.ended ++ [ec] }

/-- `event_client_monitor`。`ok` は `epoll_ctl` の結果。閉じた descriptor は登録できない。 -/
def Pool.monitor (ok : Bool) : Pool × Bool :=
  match ec.client.fd with
  | none => (s, false)
  | some fd =>
    if ok then
      ({ s with
        activeCount := s.activeCount + 1
        active := update s.active fd (some ec) }, true)
    else ({ s with active := update s.active fd none }, false)

def Pool.unmonitor (fd : Nat) : Pool :=
  { s with activeCount := s.activeCount - 1, active := update s.active fd none }

/-- `event_client_monitor` と、失敗の時の `event_client_free` -/
def Pool.monitorOrFree (ok : Bool) : Pool :=
  match s.monitor ec ok with
  | (s, true) => s
  | (s, false) => s.free ec

/-- `_manage_timeouts` の loop の 1 回 -/
def Pool.manageTimeout (now : Int) (s : Pool) (i : Nat) : Pool :=
  match s.active i with
  | none => s
  | some ec =>
    if ec.client.expired now then
      (s.unmonitor i).free { ec with client := ec.client.fail ⟨1, "Timeout"⟩ }
    else s

/-- `_manage_timeouts`。`now` は micro 秒。 -/
def Pool.manageTimeouts (now : Int) : Pool :=
  if s.activeCount ≤ 0 then s
  else if s.lastTimeoutCheck = now / 1000000 then s
  else (range s.activeSize).foldl (Pool.manageTimeout now) s

/-- `_manage_requests` の loop の 1 回 -/
def Pool.manageRequest (env : NetEnv) (ok : Bool) : Option Pool :=
  if s.activeCount < s.activeMax then
    match s.pending with
    | [] => some s
    | ec :: pending =>
      let s := { s with pending := pending }
      match ec.client.start env with
      | (c, true) => some (s.monitorOrFree { ec with client := c } ok)
      | (c, false) => if c.error.isSome then some (s.free { ec with client := c }) else none
  else some s

def Pool.manageOneEvent (fd : Nat) (evt : PollEvent) (env : NetEnv) (ok : Bool) : Option Pool :=
  match s.active fd with
  | none => none
  | some ec =>
    let s := s.unmonitor fd
    if evt.error || evt.hangup then some (s.free ec)
    else
      match ec.client.react env with
      | none => none
      | some c =>
        match c.finished with
        | none => none
        | some true => some (s.free { ec with client := c })
        | some false => some (s.monitorOrFree { ec with client := c } ok)

def Pool.defer : Pool :=
  { s with pending := s.pending ++ [{ ec with client := { ec.client with received := [] } }] }

/-! ## run -/

/-- pool の 1 回の呼び出し。`ok` はその中の `epoll_ctl` の結果。 -/
inductive PoolCall
  | defer (ec : EventClient)
  | event (fd : Nat) (evt : PollEvent) (env : NetEnv) (ok : Bool)
  | timeouts (now : Int)
  | request (env : NetEnv) (ok : Bool)

def Pool.step : PoolCall → Option Pool
  | .defer ec => some (s.defer ec)
  | .event fd evt env ok => s.manageOneEvent fd evt env ok
  | .timeouts now => some (s.manageTimeouts now)
  | .request env ok => s.manageRequest env ok

/-- 異常も登録の失敗も無く、client に request がある -/
def PoolCall.smooth : PoolCall → Bool
  | .defer ec => ec.client.request.isSome
  | .event _ evt _ ok => !evt.error && !evt.hangup && ok
  | .timeouts _ => true
  | .request _ ok => ok

/-- end callback が error を見なければ、最後の応答を受け取っている -/
def EventClient.EndsRight : Prop := ec.client.error = none → ec.client.finalReceived = true

/-! ## 不変条件 -/

/-- 列の client に request があり、登録した client はつながっていて、終わったものの callback は正しい -/
structure Pool.Inv (s : Pool) : Prop where
  pending : ∀ ec ∈ s.pending, ec.client.request.isSome = true
  active : ∀ {fd ec}, s.active fd = some ec →
    ec.client.request.isSome = true ∧ ec.client.fd.isSome = true
  ended : ∀ ec ∈ s.ended, ec.EndsRight

section

variable {s : Pool} {ec : EventClient}

variable (h : s.Inv)
include h

theorem Pool.Inv.free (hec : ec.EndsRight) : (s.free ec).Inv where
  pending := h.pending
  active := h.active
  ended := by
    intro ec' hmem
    rcases mem_append.mp hmem with hmem | hmem
    · exact h.ended ec' hmem
    · rw [mem_singleton.mp hmem]
      exact hec

theorem Pool.Inv.unmonitor (fd : Nat) : (s.unmonitor fd).Inv where
  pending := h.pending
  active := by
    intro fd' ec' hactive
    change update s.active fd none fd' = _ at hactive
    by_cases heq : fd' = fd
    · rw [heq, update_self] at hactive
      cases hactive
    · rw [update_of_ne heq] at hactive
      exact h.active hactive
  ended := h.ended

theorem Pool.Inv.monitorOrFree (hreq : ec.client.request.isSome = true)
    (hfd : ec.client.fd.isSome = true) : (s.monitorOrFree ec true).Inv := by
  obtain ⟨fd, hsome⟩ := Option.isSome_iff_exists.mp hfd
  have hmonitor : s.monitorOrFree ec true = { s with
      activeCount := s.activeCount + 1
      active := update s.active fd (some ec) } := by
    unfold Pool.monitorOrFree Pool.monitor
    rw [hsome]
    rfl
  rw [hmonitor]
  refine ⟨h.pending, ?_, h.ended⟩
  intro fd' ec' hactive
  change update s.active fd (some ec) fd' = _ at hactive
  by_cases heq : fd' = fd
  · rw [heq, update_self] at hactive
    cases hactive
    exact ⟨hreq, hfd⟩
  · rw [update_of_ne heq] at hactive
    exact h.active hactive

omit h in
theorem endsRight_of_error (h : ec.client.error.isSome = true) : ec.EndsRight := by
  intro hnone
  rw [hnone] at h
  cases h

theorem Pool.Inv.manageTimeout (now : Int) (i : Nat) : (s.manageTimeout now i).Inv := by
  unfold Pool.manageTimeout
  split
  · exact h
  split
  · exact (h.unmonitor i).free (endsRight_of_error rfl)
  · exact h

theorem Pool.Inv.manageTimeouts (now : Int) : (s.manageTimeouts now).Inv := by
  have hloop : ∀ (slots : List Nat) {s : Pool}, s.Inv →
      (slots.foldl (Pool.manageTimeout now) s).Inv := by
    intro slots
    induction slots with
    | nil => exact id
    | cons i slots ih => exact fun hs => ih (hs.manageTimeout now i)
  unfold Pool.manageTimeouts
  split
  · exact h
  split
  · exact h
  · exact hloop _ h

omit h in
theorem start_connected {env : NetEnv} {c c' : Client} (h : c.start env = (c', true)) :
    c'.request = c.request ∧ c'.fd.isSome = true := by
  unfold Client.start at h
  simp only at h
  split at h
  · cases h
  split at h
  · cases h
  split at h
  · rename_i c1 hconnect
    cases h
    unfold Client.connect at hconnect
    split at hconnect
    · cases hconnect
    · cases hconnect
      exact ⟨rfl, rfl⟩
  · cases h

theorem Pool.Inv.manageRequest {s' : Pool} {env : NetEnv}
    (hs : s.manageRequest env true = some s') : s'.Inv := by
  unfold Pool.manageRequest at hs
  split at hs
  · split at hs
    · cases hs
      exact h
    rename_i ec pending hpending
    have hec : ec.client.request.isSome = true := h.pending ec (hpending ▸ mem_cons_self)
    have hpop : Pool.Inv { s with pending := pending } :=
      ⟨fun ec' hmem => h.pending ec' (hpending ▸ mem_cons_of_mem _ hmem), h.active, h.ended⟩
    split at hs
    · rename_i c hstart
      cases hs
      obtain ⟨hrequest, hfd⟩ := start_connected hstart
      exact hpop.monitorOrFree (hrequest ▸ hec) hfd
    split at hs
    · rename_i herror
      cases hs
      exact hpop.free (endsRight_of_error herror)
    · cases hs
  · cases hs
    exact h

omit h in
theorem finished_healthy {c : Client} {b : Bool} (hhealthy : c.Healthy)
    (hfinished : c.finished = some b) :
    (b = true → c.error.isSome = true ∨ c.finalReceived = true) ∧
      (b = false → c.fd.isSome = true) := by
  rcases hhealthy with ⟨hwait, hfd⟩ | ⟨hok, hreceived⟩
  · refine ⟨fun hb => .inl ?_, fun _ => hfd⟩
    unfold Client.finished at hfinished
    split at hfinished
    · assumption
    · cases hstep : c.step <;> simp_all [ClientStep.waiting]
  · refine ⟨fun _ => .inr (any_eq_true.mpr ⟨200, hreceived, rfl⟩), fun hb => ?_⟩
    subst hb
    unfold Client.finished at hfinished
    rw [hok] at hfinished
    split at hfinished <;> cases hfinished

theorem Pool.Inv.manageOneEvent {s' : Pool} {fd : Nat} {evt : PollEvent} {env : NetEnv}
    (herr : evt.error = false) (hhup : evt.hangup = false)
    (hs : s.manageOneEvent fd evt env true = some s') : s'.Inv := by
  unfold Pool.manageOneEvent at hs
  split at hs
  · cases hs
  rename_i ec hactive
  obtain ⟨hreq, hfd⟩ := h.active hactive
  rw [herr, hhup] at hs
  simp only [Bool.or_self, Bool.false_eq_true, if_false] at hs
  split at hs
  · cases hs
  rename_i c hreact
  have hfree := h.unmonitor fd
  rcases react_healthy hreact hreq hfd with herror | ⟨hrequest, hhealthy⟩
  · have hsome : c.error.isSome = true := Option.isSome_iff_ne_none.mpr herror
    have hfinished : c.finished = some true := if_pos hsome
    rw [hfinished] at hs
    cases hs
    exact hfree.free (endsRight_of_error hsome)
  split at hs
  · cases hs
  · rename_i hfinished
    cases hs
    refine hfree.free fun hnone => ?_
    rcases (finished_healthy hhealthy hfinished).1 rfl with hsome | hfinal
    · rw [hnone] at hsome
      cases hsome
    · exact hfinal
  · rename_i hfinished
    cases hs
    exact hfree.monitorOrFree hrequest ((finished_healthy hhealthy hfinished).2 rfl)

theorem Pool.Inv.step {s' : Pool} {call : PoolCall} (hsmooth : call.smooth = true)
    (hs : s.step call = some s') : s'.Inv := by
  cases call with
  | defer ec =>
    cases hs
    refine ⟨?_, h.active, h.ended⟩
    intro ec' hmem
    rcases mem_append.mp hmem with hmem | hmem
    · exact h.pending ec' hmem
    · rw [mem_singleton.mp hmem]
      exact hsmooth
  | event fd evt env ok =>
    simp only [PoolCall.smooth, Bool.and_eq_true, Bool.not_eq_true'] at hsmooth
    obtain ⟨⟨herr, hhup⟩, rfl⟩ := hsmooth
    exact h.manageOneEvent herr hhup hs
  | timeouts now =>
    cases hs
    exact h.manageTimeouts now
  | request env ok =>
    obtain rfl : ok = true := hsmooth
    exact h.manageRequest hs

end

/-! ## end callback -/

/-- **滞りの無い run で error なしに終わった client は最後の応答を受け取っている。** -/
theorem ended_without_error_received {limit : Nat} {s : Pool} {ec : EventClient}
    (h : Reach Pool.step (fun _ call => call.smooth = true) (Pool.create limit) s)
    (hended : ec ∈ s.ended) (herror : ec.client.error = none) :
    ec.client.finalReceived = true := by
  have hinv : s.Inv := by
    refine h.invariant ⟨?_, ?_, ?_⟩ fun hinv hsmooth hs => hinv.step hsmooth hs
    · exact fun ec hmem => absurd hmem not_mem_nil
    · intro fd ec hactive
      cases hactive
    · exact fun ec hmem => absurd hmem not_mem_nil
  exact hinv.ended ec hended herror

def freshClient : Client where
  url := ascii "127.0.0.1:6000"
  nbRedirects := 0
  fd := none
  step := .none
  request := some [0, 0, 0, 1, 48]
  sentBytes := 0
  tvStep := 0
  tvStart := 0
  delayStep := 10000000
  delayOverall := 30000000
  size := 0
  reply := none
  onReply := false
  error := none
  pastUrl := []
  keepalive := false
  received := []

def quietEnv : NetEnv where
  now := 5000000
  write := .again
  reads := []
  decode := fun _ => .ok none
  onReply := fun _ => true
  connect := fun _ => .ok 7
  strerror := fun _ => ""

def answeringEnv : NetEnv :=
  { quietEnv with
    write := .done 5
    reads := [.data [0, 0, 0, 1, 48] 0]
    decode := fun _ => .ok (some ⟨200, []⟩) }

def answeredRun : List PoolCall :=
  [.defer ⟨1, freshClient⟩, .request quietEnv true,
    .event 7 ⟨false, true, false, false⟩ quietEnv true,
    .event 7 ⟨true, true, false, false⟩ answeringEnv true]

theorem answeredRun_received :
    ∃ s ec, exec Pool.step (Pool.create 1024) answeredRun = some s ∧ ec ∈ s.ended ∧
      ec.client.error = none ∧ ec.client.finalReceived = true := by
  obtain ⟨s, hrun, ec, hmem, herror⟩ : ∃ s ∈ exec Pool.step (Pool.create 1024) answeredRun,
      ∃ ec ∈ s.ended, ec.client.error = none := by
    decide +kernel
  exact ⟨s, ec, hrun, hmem, herror, ended_without_error_received
    (reach_of_exec answeredRun (by decide +kernel) hrun) hmem herror⟩

/-- 相手が閉じるか登録に失敗すると、error も応答も無く終わる -/
theorem hangup_ends_without_error : (exec Pool.step (Pool.create 1024)
      [.defer ⟨1, freshClient⟩, .request quietEnv true,
        .event 7 ⟨false, false, false, true⟩ quietEnv true]).map
      (fun s => s.ended.map fun ec => (ec.id, ec.client.error.isSome, ec.client.received)) =
      some [(1, false, [])] ∧
    (exec Pool.step (Pool.create 1024) [.defer ⟨1, freshClient⟩, .request quietEnv false]).map
      (fun s => s.ended.map fun ec => (ec.id, ec.client.error.isSome, ec.client.received)) =
      some [(1, false, [])] := by
  decide

end Redcurrant.Metautils
