import Redcurrant.Infra.Loop
import Redcurrant.Metautils.L4v
import Redcurrant.Sqliterepo.Version

/-!
# gridd の client

client は接続し、request を送り、応答を status 200 まで読む。status 303 は接続し直しを求める。
-/

namespace Redcurrant.Metautils

open Infra Sqliterepo Option List

/-! ## client -/

inductive ClientStep
  | none | connecting | connected | reqSending | repReadingSize | repReadingData
  | statusOk | statusFailed
  deriving DecidableEq

/-- `struct gridd_client_s`。時刻は micro 秒。`onReply` は callback の有無。 -/
structure Client where
  url : Bytes
  nbRedirects : Nat
  fd : Option Nat
  step : ClientStep
  request : Option Bytes
  sentBytes : Nat
  (tvStep tvStart delayStep delayOverall : Int)
  size : Nat
  reply : Option Bytes
  onReply : Bool
  error : Option GError
  pastUrl : Bytes
  keepalive : Bool
  received : List Int
  deriving DecidableEq

structure Reply where
  status : Int
  message : Bytes
  deriving DecidableEq

/-- `read` の結果。`data` は読めた byte で、空なら相手が閉じている。`errno` は残っている値。 -/
inductive ReadResult
  | data (b : Bytes) (errno : Int)
  | again
  | failed (errno : Int)

inductive WriteResult
  | done (n : Nat)
  | again
  | failed (errno : Int)

/-- client の外。`decode` は BER の message を読み、応答でなければ `none`。 -/
structure NetEnv where
  now : Int
  write : WriteResult
  reads : List ReadResult
  decode : Bytes → Except GError (Option Reply)
  onReply : Reply → Bool
  connect : Bytes → Except GError Nat
  strerror : Int → String

/-! ## 部品 -/

variable (c : Client) (env : NetEnv)

def Client.resetRequest : Client :=
  { c with request := none, onReply := false, sentBytes := 0, nbRedirects := 0 }

def Client.resetReply : Client := { c with size := 0, reply := some [] }

def Client.resetCnx : Client := { c with fd := none, step := .none }

def Client.connect (env : NetEnv) (c : Client) : Client × Option GError :=
  match env.connect c.url with
  | .error e => ({ c with fd := none }, some ⟨e.code, "Connect error: " ++ e.message⟩)
  | .ok fd => ({ c with fd := some fd, tvStep := env.now, step := .connecting }, none)

def Client.looped (url : Bytes) : Bool := (c.pastUrl.splitOn 124).any (strcaseeq url)

/-- status 303 の応答 -/
def Client.redirect (c : Client) (message : Bytes) : Client × Option GError :=
  let c := { c.resetReply.resetCnx with sentBytes := 0, nbRedirects := c.nbRedirects + 1 }
  if 7 < c.nbRedirects then (c, some ⟨305, "Too many redirections"⟩)
  else
    let c := { c with pastUrl := c.pastUrl ++ 124 :: c.url }
    if c.looped message then (c, some ⟨304, "Looping on redirections"⟩)
    else
      -- `g_strlcpy` に渡す大きさは 31
      match ({ c with url := message.take 30 } : Client).connect env with
      | (c, some e) => (c, some ⟨e.code, "Redirection error: Connect error: " ++ e.message⟩)
      | (c, none) => (c, none)

def Client.manageReply (c : Client) (r : Reply) : Client × Option GError :=
  let c := { c with received := c.received ++ [r.status] }
  match r.status.tdiv 100 with
  | 0 => ({ c with fd := none, step := .statusFailed },
      some ⟨r.status, "net error: " ++ text r.message⟩)
  | 1 => ({ c with tvStep := env.now, step := .repReadingSize }, none)
  | 2 =>
    let c := if r.status = 200 then
        { c with tvStep := env.now, step := .statusOk, fd := if c.keepalive then c.fd else none }
      else { c with tvStep := env.now, step := .repReadingSize }
    if c.onReply && !env.onReply r then (c, some ⟨500, "Handler error"⟩) else (c, none)
  | _ =>
    if r.status = 303 then c.redirect env r.message
    else ((if c.keepalive then c else c.resetCnx).resetReply,
      some ⟨r.status, "Request error: " ++ text r.message⟩)

def Client.manageReplyData (c : Client) : Client × Option GError :=
  match l4vExtract (c.reply.getD []) with
  | none => (c, some ⟨0, "Decoding error: Cannot extract the L4V encapsulated data"⟩)
  | some payload =>
    match env.decode payload with
    | .error e => (c, some ⟨e.code, "Decoding error: " ++ e.message⟩)
    | .ok none => (c, some ⟨500, "Invalid reply"⟩)
    | .ok (some r) => c.manageReply env r

/-! ## event -/

/-- event を扱った後の client、残りの `read`、error。`none` は abort。 -/
abbrev EventResult := Option (Client × List ReadResult × Option GError)

/-- `client->size + 4` -/
def Client.needed : Nat := (c.size + 4) % 2 ^ 32

/-- 応答がそろっていれば扱う。`rc` は今読んだ byte の数。 -/
def Client.finishData (c : Client) (reads : List ReadResult) (rc : Nat) (errno : Int) :
    EventResult :=
  -- `GByteArray` の長さは `guint`
  if 2 ^ 32 ≤ (c.reply.getD []).length then none
  else if c.needed ≤ (c.reply.getD []).length then
    match c.manageReplyData env with
    | (c, some e) => some ({ c with step := .statusFailed }, reads, some e)
    | (c, none) =>
      if c.step = .connecting ∨ c.step = .statusFailed ∨ c.step = .statusOk then
        some (c, reads, none)
      else
        some ({ c with
          reply := some ((c.reply.getD []).drop c.needed)
          step := .repReadingSize
          size := 0 }, reads, none)
  else if rc = 0 then some (c, reads, some ⟨errno, "EOF!"⟩)
  else some (c, reads, none)

/-- `REP_READING_DATA` -/
def Client.readData (c : Client) (reads : List ReadResult) : EventResult :=
  let c := { c with step := .repReadingData, tvStep := env.now }
  if (c.reply.getD []).length < c.needed then
    match reads with
    | [] => some (c, [], none)
    | .again :: reads => some (c, reads, none)
    | .failed e :: reads => some (c, reads, some ⟨e, "read error (" ++ env.strerror e ++ ")"⟩)
    | .data b errno :: reads =>
      ({ c with reply := some (c.reply.getD [] ++ b) } : Client).finishData env reads b.length errno
  else c.finishData env reads 0 0

/-- `REP_READING_SIZE` の、長さを読んだ後 -/
def Client.sizeRead (c : Client) (reads : List ReadResult) : EventResult :=
  ({ c with size := l4vGetSize (c.reply.getD []) } : Client).readData env reads

/-- `REP_READING_SIZE` -/
def Client.readSize (c : Client) (reads : List ReadResult) : EventResult :=
  let c := { c with step := .repReadingSize, tvStep := env.now, reply := some (c.reply.getD []) }
  if (c.reply.getD []).length < 4 then
    match reads with
    | [] => some (c, [], none)
    | .again :: reads => some (c, reads, none)
    | .failed e :: reads => some (c, reads, some ⟨e, "read error (" ++ env.strerror e ++ ")"⟩)
    | .data b errno :: reads =>
      let c := { c with reply := some (c.reply.getD [] ++ b) }
      if (c.reply.getD []).length < 4 then
        some (c, reads, if b.length = 0 then some ⟨errno, "EOF!"⟩ else none)
      else c.sizeRead env reads
  else c.sizeRead env reads

/-- `REQ_SENDING` -/
def Client.sendRequest (c : Client) (reads : List ReadResult) : EventResult :=
  let c := { c with step := .reqSending, tvStep := env.now }
  match c.request with
  | none => some (c, reads, none)
  | some req =>
    let c := c.resetReply
    match env.write with
    | .again => some (c, reads, none)
    | .failed e => some (c, reads, some ⟨e, "write error (" ++ env.strerror e ++ ")"⟩)
    | .done n =>
      let c := { c with sentBytes := c.sentBytes + n }
      if c.sentBytes < req.length then some (c, reads, none) else c.readSize env reads

/-- `_client_manage_event_in_buffer` -/
def Client.manageEvent (c : Client) (reads : List ReadResult) : EventResult :=
  match c.step with
  | .connecting =>
    some ({ c with step := if c.request.isSome then .reqSending else .connected }, reads, none)
  | .reqSending => c.sendRequest env reads
  | .repReadingSize => c.readSize env reads
  | .repReadingData => c.readData env reads
  | _ => none

/-! ## 1 つの event の効果 -/

def ClientStep.waiting : ClientStep → Bool
  | .connecting | .reqSending | .repReadingSize | .repReadingData => true
  | _ => false

/-- つながって待っているか、最後の応答を受け取った -/
def Client.Healthy : Prop :=
  c.step.waiting = true ∧ c.fd.isSome = true ∨ c.step = .statusOk ∧ 200 ∈ c.received

/-- `read` で読める byte の数 -/
def readable : List ReadResult → Nat
  | [] => 0
  | .data b _ :: reads => b.length + readable reads
  | _ :: reads => readable reads

/-- error の無い event の効果。応答を扱い終えると、読んだ byte が `k` 以上減る。 -/
def Keeps (n k : Nat) (r : EventResult) : Prop :=
  ∀ c' reads', r = some (c', reads', none) → c'.error = c.error ∧ c'.request = c.request ∧
    (c.request.isSome = true → c.fd.isSome = true → c'.Healthy) ∧
    (c'.step = .repReadingSize → 4 ≤ (c'.reply.getD []).length →
      (c'.reply.getD []).length + readable reads' + k ≤ n)

section

variable {env : NetEnv} {c c' : Client} {reads : List ReadResult} {n k : Nat}

open Metautils.Client

/-- 応答を待ち続ける event -/
theorem keeps_waiting {c₁ : Client} {reads' : List ReadResult} {e : Option GError}
    (herror : c₁.error = c.error) (hrequest : c₁.request = c.request)
    (hstep : c₁.step.waiting = true) (hfd : c₁.fd = c.fd)
    (hshort : c₁.step = .repReadingSize → (c₁.reply.getD []).length < 4) :
    Keeps c n k (some (c₁, reads', e)) := by
  intro c' reads'' h
  cases h
  refine ⟨herror, hrequest, fun _ hopen => .inl ⟨hstep, hfd ▸ hopen⟩, fun hsz hfour => ?_⟩
  exact absurd hfour (Nat.not_le.mpr (hshort hsz))

theorem redirect_none {message : Bytes} (h : c.redirect env message = (c', none)) :
    c'.error = c.error ∧ c'.request = c.request ∧ c'.step = .connecting ∧ c'.fd.isSome = true := by
  unfold redirect at h
  simp only at h
  split at h
  · cases h
  split at h
  · cases h
  split at h
  · cases h
  rename_i c1 hconnect
  cases h
  unfold connect at hconnect
  split at hconnect
  · cases hconnect
  · cases hconnect
    exact ⟨rfl, rfl, rfl, rfl⟩

theorem manageReply_none {r : Reply} (h : c.manageReply env r = (c', none)) :
    c'.error = c.error ∧ c'.request = c.request ∧
      ((c'.step = .repReadingSize ∧ c'.reply = c.reply ∧ c'.size = c.size ∧ c'.fd = c.fd) ∨
        (c'.step = .connecting ∧ c'.fd.isSome = true) ∨
        (c'.step = .statusOk ∧ 200 ∈ c'.received)) := by
  unfold manageReply at h
  simp only at h
  split at h
  · cases h
  · cases h
    exact ⟨rfl, rfl, .inl ⟨rfl, rfl, rfl, rfl⟩⟩
  · by_cases hok : r.status = 200
    · rw [if_pos hok] at h
      generalize (if c.keepalive = true then c.fd else none) = fd at h
      split at h <;> cases h
      refine ⟨rfl, rfl, .inr (.inr ⟨rfl, ?_⟩)⟩
      rw [hok]
      exact mem_append_right _ (mem_singleton_self _)
    · rw [if_neg hok] at h
      split at h <;> cases h
      exact ⟨rfl, rfl, .inl ⟨rfl, rfl, rfl, rfl⟩⟩
  · split at h
    · obtain ⟨herror, hrequest, hconnect⟩ := redirect_none h
      exact ⟨herror, hrequest, .inr (.inl hconnect)⟩
    · cases h

theorem manageReplyData_none (h : c.manageReplyData env = (c', none)) :
    4 ≤ (c.reply.getD []).length ∧ l4vGetSize (c.reply.getD []) ≤ (c.reply.getD []).length - 4 ∧
      ∃ r, c.manageReply env r = (c', none) := by
  unfold manageReplyData at h
  split at h
  · cases h
  rename_i payload hextract
  unfold l4vExtract at hextract
  split at hextract
  · cases hextract
  rename_i hlen
  split at hextract
  · cases hextract
  split at h
  · cases h
  · cases h
  · rename_i r _
    exact ⟨by omega, by omega, r, h⟩

theorem keeps_finishData {rc : Nat} {errno : Int} (hstep : c.step = .repReadingData)
    (hk : k = 0 ∨ k = 4 ∧ c.size = l4vGetSize (c.reply.getD [])) :
    Keeps c ((c.reply.getD []).length + readable reads) k (c.finishData env reads rc errno) := by
  intro c' reads' h
  unfold finishData at h
  split at h
  · cases h
  split at h
  · rename_i hneeded
    split at h
    · cases h
    rename_i c1 hmanage
    obtain ⟨hfour, hsize, r, hreply⟩ := manageReplyData_none hmanage
    obtain ⟨herror, hrequest, hcases⟩ := manageReply_none hreply
    split at h
    · rename_i hend
      cases h
      refine ⟨herror, hrequest, fun _ _ => ?_, fun hsz => ?_⟩
      · rcases hcases with ⟨hs, -, -⟩ | ⟨hs, hfd⟩ | hs
        · rw [hs] at hend
          rcases hend with hend | hend | hend <;> cases hend
        · exact .inl ⟨by rw [hs]; rfl, hfd⟩
        · exact .inr hs
      · rw [hsz] at hend
        rcases hend with hend | hend | hend <;> cases hend
    rename_i hend
    cases h
    rcases hcases with ⟨-, hbytes, hsz, hfd⟩ | ⟨hs, -⟩ | hs
    · refine ⟨herror, hrequest, fun _ hconnected => .inl ⟨rfl, hfd ▸ hconnected⟩, fun _ _ => ?_⟩
      have hneed : c1.needed = c.needed := by rw [needed, needed, hsz]
      simp only [getD_some, length_drop, hbytes, hneed]
      rcases hk with rfl | ⟨rfl, hk⟩
      · omega
      have : c.needed = c.size + 4 := by
        exact Nat.mod_eq_of_lt (by omega)
      omega
    · exact absurd (.inl hs) hend
    · exact absurd (.inr (.inr hs.1)) hend
  · split at h
    · cases h
    cases h
    refine ⟨rfl, rfl, fun _ hfd => .inl ⟨by rw [hstep]; rfl, hfd⟩, fun hsz => ?_⟩
    rw [hstep] at hsz
    cases hsz

theorem keeps_readData
    (hk : k = 0 ∨ k = 4 ∧ 4 ≤ (c.reply.getD []).length ∧ c.size = l4vGetSize (c.reply.getD [])) :
    Keeps c ((c.reply.getD []).length + readable reads) k (c.readData env reads) := by
  unfold readData
  simp only
  split
  · split
    iterate 3 exact keeps_waiting rfl rfl rfl rfl nofun
    · rename_i b errno rest
      intro c' reads' h
      have hk' : k = 0 ∨ k = 4 ∧ c.size = l4vGetSize (c.reply.getD [] ++ b) := by
        rcases hk with hk | ⟨hk, hfour, hsize⟩
        · exact .inl hk
        · exact .inr ⟨hk, hsize.trans (l4vGetSize_append hfour b).symm⟩
      obtain ⟨herror, hrequest, hhealthy, hle⟩ :=
        keeps_finishData (c := { c with
          step := .repReadingData
          tvStep := env.now
          reply := some (c.reply.getD [] ++ b) }) rfl hk' c' reads' h
      refine ⟨herror, hrequest, hhealthy, fun hsz hfour => ?_⟩
      have := hle hsz hfour
      simp only [getD_some, length_append] at this
      rw [readable]
      omega
  · intro c' reads' h
    have hk' : k = 0 ∨ k = 4 ∧ c.size = l4vGetSize (c.reply.getD []) :=
      hk.imp_right fun hk => ⟨hk.1, hk.2.2⟩
    exact keeps_finishData (c := { c with step := .repReadingData, tvStep := env.now }) rfl hk' c'
      reads' h

theorem keeps_sizeRead (hfour : 4 ≤ (c.reply.getD []).length) :
    Keeps c ((c.reply.getD []).length + readable reads) 4 (c.sizeRead env reads) := by
  intro c' reads' h
  exact keeps_readData (c := { c with size := l4vGetSize (c.reply.getD []) })
    (.inr ⟨rfl, hfour, rfl⟩) c' reads' h

theorem keeps_readSize :
    Keeps c ((c.reply.getD []).length + readable reads) 4 (c.readSize env reads) := by
  unfold readSize
  simp only [getD_some]
  split
  · rename_i hlt
    split
    iterate 3 exact keeps_waiting rfl rfl rfl rfl fun _ => hlt
    · rename_i b errno rest
      split
      · rename_i hshort
        exact keeps_waiting rfl rfl rfl rfl fun _ => hshort
      rename_i hfour
      intro c' reads' h
      obtain ⟨herror, hrequest, hhealthy, hle⟩ :=
        keeps_sizeRead (c := { c with
          step := .repReadingSize
          tvStep := env.now
          reply := some (c.reply.getD [] ++ b) }) (Nat.not_lt.mp hfour) c' reads' h
      refine ⟨herror, hrequest, hhealthy, fun hsz hfour' => ?_⟩
      have := hle hsz hfour'
      simp only [getD_some, length_append] at this
      rw [readable]
      omega
  · rename_i hfour
    intro c' reads' h
    exact keeps_sizeRead (c := { c with
      step := .repReadingSize
      tvStep := env.now
      reply := some (c.reply.getD []) }) (Nat.not_lt.mp hfour) c' reads' h

theorem keeps_sendRequest :
    Keeps c ((c.reply.getD []).length + readable reads) 0 (c.sendRequest env reads) := by
  unfold sendRequest
  simp only
  split
  · exact keeps_waiting rfl rfl rfl rfl nofun
  rename_i req hreq
  split
  · exact keeps_waiting rfl rfl rfl rfl nofun
  · exact keeps_waiting rfl rfl rfl rfl nofun
  rename_i n
  split
  · exact keeps_waiting rfl rfl rfl rfl nofun
  intro c' reads' h
  obtain ⟨herror, hrequest, hhealthy, hle⟩ := keeps_readSize c' reads' h
  refine ⟨herror, hrequest, hhealthy, fun hsz hfour => ?_⟩
  have := hle hsz hfour
  simp only [resetReply, getD_some, length_nil] at this
  omega

/-- 応答を扱って読みに戻るとき、長さから読んでいれば、読める byte は減っている -/
theorem keeps_manageEvent :
    Keeps c ((c.reply.getD []).length + readable reads) (if c.step = .repReadingSize then 4 else 0)
      (c.manageEvent env reads) := by
  generalize hk : (if c.step = .repReadingSize then 4 else 0) = k
  unfold manageEvent
  split
  · intro c' reads' h
    cases h
    refine ⟨rfl, rfl, fun hreq hfd => .inl ⟨?_, hfd⟩, fun hsz => ?_⟩
    · rw [if_pos hreq]
      rfl
    · split at hsz <;> cases hsz
  · rename_i hstep
    rw [hstep] at hk
    subst hk
    exact keeps_sendRequest
  · rename_i hstep
    rw [hstep] at hk
    subst hk
    exact keeps_readSize
  · rename_i hstep
    rw [hstep] at hk
    subst hk
    exact keeps_readData (.inl rfl)
  · intro c' reads' h
    cases h

end

/-! ## react -/

/-- `_client_react` の 1 回。結果の `false` は abort。 -/
def reactTurn (s : Client × List ReadResult) : Turn (Client × List ReadResult) Bool :=
  match s.1.manageEvent env s.2 with
  | none => .stop s false
  | some (c, reads, some e) =>
    .stop ({ c.resetRequest.resetReply.resetCnx with error := some e, step := .statusFailed },
      reads) true
  | some (c, reads, none) =>
    if c.step = .repReadingSize ∧ 4 ≤ (c.reply.getD []).length then .again (c, reads)
    else .stop (c, reads) true

def reactWork (s : Client × List ReadResult) : Nat :=
  2 * ((s.1.reply.getD []).length + readable s.2) + if s.1.step = .repReadingSize then 0 else 1

section

variable {env : NetEnv} {s s' : Client × List ReadResult} (h : reactTurn env s = .again s')
include h

theorem reactTurn_again :
    s.1.manageEvent env s.2 = some (s'.1, s'.2, none) ∧ s'.1.step = .repReadingSize ∧
      4 ≤ (s'.1.reply.getD []).length := by
  unfold reactTurn at h
  split at h
  · cases h
  · cases h
  rename_i c reads hevent
  split at h <;> cases h
  rename_i hretry
  exact ⟨hevent, hretry⟩

theorem reactWork_lt : reactWork s' < reactWork s := by
  obtain ⟨hevent, hstep, hfour⟩ := reactTurn_again h
  obtain ⟨-, -, -, hle⟩ := keeps_manageEvent s'.1 s'.2 hevent
  have hle := hle hstep hfour
  unfold reactWork
  rw [if_pos hstep]
  split at hle
  · omega
  rename_i hs
  rw [if_neg hs]
  omega

end

/-- `_client_react`。`none` は abort。 -/
def Client.react (c : Client) : Option Client :=
  match loop (reactTurn env) reactWork reactWork_lt (c, env.reads) with
  | ((c, _), true) => some c
  | (_, false) => none

/-- 最後の応答を受け取った。1xx、200 でない 2xx、303 の後にはまだ応答がある。 -/
def isFinal (status : Int) : Bool :=
  !(status.tdiv 100 == 1 || status.tdiv 100 == 2 && status != 200 || status == 303)

def Client.finalReceived : Bool := c.received.any isFinal

theorem react_healthy {env : NetEnv} {c c' : Client} (h : c.react env = some c')
    (hreq : c.request.isSome = true) (hfd : c.fd.isSome = true) :
    c'.error ≠ none ∨ c'.request.isSome = true ∧ c'.Healthy := by
  let Q (s : Client × List ReadResult) (ok : Bool) : Prop := ok = true →
    s.1.error ≠ none ∨ s.1.request.isSome = true ∧ s.1.Healthy
  have hloop : Q (loop (reactTurn env) reactWork reactWork_lt (c, env.reads)).1
      (loop (reactTurn env) reactWork reactWork_lt (c, env.reads)).2 := by
    refine loop_rule (Q := Q) (I := fun s => s.1.request.isSome = true ∧ s.1.fd.isSome = true)
      ?_ ?_ (c, env.reads) ⟨hreq, hfd⟩
    · rintro s s' ⟨hreq, hfd⟩ ht
      obtain ⟨hevent, hstep, -⟩ := reactTurn_again ht
      obtain ⟨-, hrequest, hhealthy, -⟩ := keeps_manageEvent s'.1 s'.2 hevent
      refine ⟨hrequest ▸ hreq, ?_⟩
      rcases hhealthy hreq hfd with ⟨-, hfd'⟩ | ⟨hok, -⟩
      · exact hfd'
      · rw [hstep] at hok
        cases hok
    rintro s s' ok ⟨hreq, hfd⟩ ht hok
    unfold reactTurn at ht
    split at ht
    · cases ht
      cases hok
    · cases ht
      exact .inl (some_ne_none _)
    rename_i c1 reads hevent
    obtain ⟨-, hrequest, hhealthy, -⟩ := keeps_manageEvent c1 reads hevent
    split at ht <;> cases ht
    exact .inr ⟨hrequest ▸ hreq, hhealthy hreq hfd⟩
  unfold Client.react at h
  split at h
  · rename_i c1 reads hrun
    cases h
    rw [hrun] at hloop
    exact hloop rfl
  · cases h

/-! ## 呼び出し -/

def Client.start (c : Client) : Client × Bool :=
  let c := { c with tvStart := env.now, tvStep := env.now }
  if c.step ≠ .none then (c, false)
  else if c.url = [] then ({ c with error := some ⟨22, "No target"⟩ }, false)
  else
    match c.connect env with
    | (c, none) => (c, true)
    | (c, some e) => ({ c with step := .statusFailed, error := some e }, false)

/-- `_client_finished`。`none` は閉じた接続での abort。 -/
def Client.finished : Option Bool :=
  if c.error.isSome then some true
  else
    match c.step with
    | .none | .connected | .statusOk | .statusFailed => some true
    | .connecting => some false
    | .reqSending | .repReadingSize | .repReadingData => if c.fd.isSome then some false else none

def Client.expired (now : Int) : Bool :=
  c.step.waiting && (decide (0 < c.delayStep) && decide (c.delayStep < now - c.tvStep) ||
    decide (0 < c.delayOverall) && decide (c.delayOverall < now - c.tvStart))

def Client.fail (why : GError) : Client := { c with error := some why }

end Redcurrant.Metautils
