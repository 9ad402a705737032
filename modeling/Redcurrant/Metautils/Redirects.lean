import Redcurrant.Infra.Run
import Redcurrant.Metautils.GriddClient

/-!
# redirect の追い掛け

redirect の数は request ごとに 0 に戻るが、訪れた URL の列（`past_url`）は client の終わりまで残る。
-/

namespace Redcurrant.Metautils

open Infra Sqliterepo List Metautils.Client

/-- `_client_request` が置く request -/
def Client.setRequest (c : Client) (req : Bytes) (onReply : Bool) : Client :=
  { c.resetReply.resetRequest with error := none, onReply := onReply, request := some req }

def Client.clientRequest (c : Client) (req : Bytes) (onReply : Bool) : Except GError Client :=
  match c.step with
  | .none | .connecting | .connected =>
    if c.request.isSome then .error ⟨500, "Request already pending"⟩
    else .ok (c.setRequest req onReply)
  | .reqSending | .repReadingSize | .repReadingData => .error ⟨500, "Request not terminated"⟩
  | .statusOk | .statusFailed =>
    .ok (({ c with step := if c.fd.isSome then .reqSending else .connecting } : Client).setRequest
      req onReply)

def loopError : GError := ⟨304, "Looping on redirections"⟩

/-- client の寿命の間に起こること。redirect は status 303 の応答。 -/
inductive ClientEvent
  | request (req : Bytes) (onReply : Bool)
  | reply (env : NetEnv) (r : Reply)

/-- client と、今の request が訪れた URL -/
structure Session where
  client : Client
  visited : List Bytes

namespace Session

/-- 作られたばかりの client -/
def create (c : Client) : Session := ⟨{ c with nbRedirects := 0, pastUrl := [] }, [c.url]⟩

def step (s : Session) : ClientEvent → Session
  | .request req onReply =>
    match s.client.clientRequest req onReply with
    | .ok c => ⟨c, [c.url]⟩
    | .error _ => s
  | .reply env r =>
    match s.client.manageReply env r with
    | (c, none) => ⟨c, if r.status = 303 then s.visited ++ [c.url] else s.visited⟩
    | (c, some _) => ⟨c, s.visited⟩

/-- loop の error は今の request で訪れた URL への redirect のもの -/
def LoopRight (s : Session) : ClientEvent → Prop
  | .request _ _ => True
  | .reply env r => (s.client.manageReply env r).2 = some loopError →
      r.status = 303 ∧ ∃ u ∈ s.visited, strcaseeq r.message u = true

/-- 7 つ目までの redirect が `past_url` にある URL に向かうなら、今の request もその URL を訪れた -/
def PastVisited (s : Session) : ClientEvent → Prop
  | .request _ _ => True
  | .reply _ r => r.status = 303 → s.client.nbRedirects < 7 →
      (∃ u ∈ (s.client.pastUrl ++ 124 :: s.client.url).splitOn 124, strcaseeq r.message u = true) →
      ∃ u ∈ s.visited, strcaseeq r.message u = true

variable {s : Session} {c c' : Client} {env : NetEnv} {r : Reply}

theorem redirect_follows {message : Bytes} (h : c.redirect env message = (c', none)) :
    c.nbRedirects < 7 ∧ c'.nbRedirects = c.nbRedirects + 1 := by
  unfold redirect at h
  simp only at h
  split at h
  · cases h
  rename_i hlt
  split at h
  · cases h
  split at h
  · cases h
  rename_i c1 hconnect
  cases h
  unfold connect at hconnect
  split at hconnect <;> cases hconnect
  exact ⟨by omega, rfl⟩

theorem redirect_nbRedirects (message : Bytes) :
    (c.redirect env message).1.nbRedirects = c.nbRedirects + 1 := by
  unfold redirect connect
  simp only
  split
  · rfl
  split
  · rfl
  split <;> rename_i h <;> split at h <;> cases h <;> rfl

/-- error の文の初めの文字が違う -/
theorem ne_loopError {e : GError} (h : e.message.toList.head? ≠ some 'L') :
    some e ≠ some loopError := by
  intro he
  rw [Option.some.inj he] at h
  exact h rfl

theorem redirect_loops_iff {message : Bytes} : (c.redirect env message).2 = some loopError ↔
    c.nbRedirects < 7 ∧
      ∃ u ∈ (c.pastUrl ++ 124 :: c.url).splitOn 124, strcaseeq message u = true := by
  unfold redirect
  simp only
  split
  · next hmany =>
    exact iff_of_false (ne_loopError (by simp)) fun h => by
      have : c.nbRedirects < 7 := h.1
      have : 7 < c.nbRedirects + 1 := hmany
      omega
  next hfew =>
  have hlt : c.nbRedirects < 7 := by
    have : ¬ 7 < c.nbRedirects + 1 := hfew
    omega
  split
  · next hloop => exact iff_of_true rfl ⟨hlt, any_eq_true.mp hloop⟩
  next hloop =>
  refine iff_of_false ?_ fun h => hloop (any_eq_true.mpr h.2)
  split
  · exact ne_loopError (by simp)
  · exact nofun

theorem manageReply_loops_iff : (c.manageReply env r).2 = some loopError ↔
    r.status = 303 ∧ c.nbRedirects < 7 ∧
      ∃ u ∈ (c.pastUrl ++ 124 :: c.url).splitOn 124, strcaseeq r.message u = true := by
  by_cases hstatus : r.status = 303
  · rw [manageReply, hstatus]
    simp only [show (303 : Int).tdiv 100 = 3 by decide, if_true, true_and]
    exact redirect_loops_iff
  refine iff_of_false ?_ fun h => hstatus h.1
  unfold manageReply
  simp only
  split
  · exact ne_loopError (by simp)
  · exact nofun
  · by_cases h200 : r.status = 200 <;> by_cases hh : (c.onReply && !env.onReply r) = true <;>
      simp [h200, hh, loopError]
  · rw [if_neg hstatus]
    exact ne_loopError (by simp)

theorem manageReply_nbRedirects : (c.manageReply env r).1.nbRedirects =
    if r.status = 303 then c.nbRedirects + 1 else c.nbRedirects := by
  by_cases hstatus : r.status = 303
  · rw [manageReply, hstatus]
    simp only [show (303 : Int).tdiv 100 = 3 by decide, if_true]
    exact redirect_nbRedirects _
  unfold manageReply
  simp only [if_neg hstatus]
  split
  · rfl
  · rfl
  · by_cases h200 : r.status = 200 <;> by_cases hh : (c.onReply && !env.onReply r) = true <;>
      simp [h200, hh]
  · split <;> rfl

/-- 追った redirect の数は 7 までである -/
def Bounded (s : Session) : Prop :=
  s.visited.length ≤ 8 ∧ s.visited.length ≤ s.client.nbRedirects + 1

theorem bounded_step (h : s.Bounded) (ev : ClientEvent) : (s.step ev).Bounded := by
  cases ev with
  | request req onReply =>
    simp only [step]
    split
    · exact ⟨by simp, by simp⟩
    · exact h
  | reply env r =>
    have hnb := @manageReply_nbRedirects s.client env r
    simp only [step]
    split
    · next c hreply =>
      rw [hreply] at hnb
      by_cases hstatus : r.status = 303
      · rw [manageReply, hstatus] at hreply
        simp only [show (303 : Int).tdiv 100 = 3 by decide, if_true] at hreply
        have hlt : s.client.nbRedirects < 7 := (redirect_follows hreply).1
        have hle := h.2
        simp only [Bounded, hstatus, if_true, length_append, length_singleton] at hnb ⊢
        omega
      · simp only [Bounded, hstatus, if_false] at hnb ⊢
        exact ⟨h.1, hnb ▸ h.2⟩
    · next c e hreply =>
      rw [hreply] at hnb
      refine ⟨h.1, h.2.trans ?_⟩
      show s.client.nbRedirects + 1 ≤ c.nbRedirects + 1
      simp only at hnb
      split at hnb <;> omega

end Session

def openEnv : NetEnv where
  now := 0
  write := .again
  reads := []
  decode _ := .ok none
  onReply _ := true
  connect _ := .ok 3
  strerror _ := ""

def idleClient (url : Bytes) : Client :=
  ⟨url, 0, none, .none, none, 0, 0, 0, 0, 0, 0, none, false, none, [], false, []⟩

/-- A から B に redirect されて終わった request と、次の request -/
def redirectedOnce : List ClientEvent :=
  [.request [] false, .reply openEnv ⟨303, ascii "B"⟩, .reply openEnv ⟨200, []⟩, .request [] false]

end Redcurrant.Metautils
