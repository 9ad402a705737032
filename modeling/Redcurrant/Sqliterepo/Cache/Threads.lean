import Redcurrant.Infra.Run
import Redcurrant.Sqliterepo.Cache.Bases

/-!
# cache を使う thread

`sqliterepo/cache.c` の呼び出しを任意個の thread が交互に進める系。1 step は lock を取って離すまでか loop の 1 回。
-/

namespace Redcurrant.Sqliterepo

open Infra Metautils Std Function

/-- `sqlx_cache_expire` と `sqlx_cache_expire_all` の loop の上限 -/
inductive SweepLimit where
  | all
  | upTo (max : Nat) («end» : Option Int)
  deriving DecidableEq

/-- loop を続けないか。`nb` は失効させた数。 -/
def SweepLimit.over (limit : SweepLimit) (nb : Nat) (now : Int) : Bool :=
  match limit with
  | .all => false
  | .upTo max fin => (max ≠ 0 ∧ max ≤ nb) ∨ fin.any (· < now)

/-- 猶予を比べる時刻。`sqlx_cache_expire_all` は猶予を問わない。 -/
def SweepLimit.clock (limit : SweepLimit) (now : Int) : Option Int :=
  match limit with
  | .all => none
  | .upTo .. => some now

/-- `_expire_base` から戻った後に続くところ -/
inductive AfterExpire where
  | reopen (hs : Hashstr)
  | forced
  | sweep (limit : SweepLimit) (nb : Nat)
  deriving DecidableEq

inductive CachePc (n : Nat) where
  /-- cache の外 -/
  | out
  /-- lock を持ち、`retry` にいる -/
  | opening (hs : Hashstr)
  /-- `g_cond_timed_wait` の中 -/
  | waiting (hs : Hashstr) (i : Fin n) (inUse : Bool)
  /-- 時間切れで起き、lock を待つ -/
  | timedOut (hs : Hashstr) (i : Fin n) (inUse : Bool)
  /-- lock を持ち、失効の loop にいる -/
  | sweeping (limit : SweepLimit) (nb : Nat)
  /-- lock を離して `close_hook` の中。`hs` は base の名前。 -/
  | closing (i : Fin n) (hs : Option Hashstr) (k : AfterExpire)
  deriving DecidableEq

def CachePc.isClosing {n : Nat} : CachePc n → Bool
  | .closing .. => true
  | _ => false

structure Handle (n : Nat) (ι : Type) where
  thread : ι
  name : Hashstr
  slot : Fin n
  deriving DecidableEq

inductive CacheCall where
  | openAndLockBase (hs : Hashstr)
  | unlockAndCloseBase (bd : Int) (force : Bool)
  | expireAll
  | expire (max : Nat) («end» : Option Int)

inductive CacheReply (n : Nat) where
  | opened (i : Fin n)
  | failed (e : GError)
  | closed
  | expired (nb : Nat)
  deriving DecidableEq

structure CacheSys (n : Nat) (ι : Type) where
  cache : Cache n ι
  lock : Option ι
  procs : ι → CachePc n
  queue : List (Nat × ι)
  held : List (Handle n ι)
  replies : ι → Option (CacheReply n)

/-- 系の 1 step。`now` は時刻、`pick` は `g_cond_signal` が起こす thread。 -/
inductive CacheLabel (ι : Type) where
  | call (t : ι) (c : CacheCall) (now : Int) (pick : ι)
  | run (t : ι) (now : Int) (pick : ι)
  | resume (t : ι) (now : Int) (pick : ι)
  | timeout (t : ι)
  | stray (t : ι)

def CacheLabel.thread {ι : Type} : CacheLabel ι → ι
  | .call t .. | .run t .. | .resume t .. | .timeout t | .stray t => t

/-- `g_cond_signal`。眠る者がいれば `pick` はその 1 人。 -/
def condSignal {ι : Type} [DecidableEq ι] (queue : List (Nat × ι)) (c : Nat) (pick : ι) :
    Option (List (Nat × ι)) :=
  if ∀ e ∈ queue, e.1 ≠ c then some queue
  else if (c, pick) ∈ queue then some (queue.erase (c, pick))
  else none

namespace CacheSys

variable {n : Nat} {ι : Type} [DecidableEq ι]

def init (n : Nat) (ι : Type) (now : Int) : CacheSys n ι where
  cache := Cache.resetBases n ι now
  lock := none
  procs _ := .out
  queue := []
  held := []
  replies _ := none

variable (s : CacheSys n ι) (cfg : CacheConfig)

/-- `t` が cache・lock・居場所を書き換える -/
def put (t : ι) (c : Cache n ι) (lock : Option ι) (pc : CachePc n) : CacheSys n ι :=
  { s with cache := c, lock := lock, procs := update s.procs t pc }

/-- slot の条件変数に signal を送る -/
def signal (i : Fin n) (pick : ι) : Option (CacheSys n ι) :=
  (condSignal s.queue (Cache.cond i) pick).map fun q => { s with queue := q }

/-- lock を離して戻る -/
def leave (t : ι) (c : Cache n ι) (r : CacheReply n) : CacheSys n ι :=
  { s.put t c none .out with replies := update s.replies t (some r) }

/-- `_expire_base` が lock を離すところ -/
def window (t : ι) (c : Cache n ι) (i : Fin n) (k : AfterExpire) : CacheSys n ι :=
  s.put t c none (.closing i (c.bases i).name k)

/-- handle を渡して戻る -/
def grant (t : ι) (c : Cache n ι) (hs : Hashstr) (i : Fin n) : CacheSys n ι :=
  { s.leave t c (.opened i) with held := ⟨t, hs, i⟩ :: s.held }

@[simp] theorem put_cache (t : ι) (c : Cache n ι) (lock : Option ι) (pc : CachePc n) :
    (s.put t c lock pc).cache = c := rfl

@[simp] theorem put_procs (t : ι) (c : Cache n ι) (lock : Option ι) (pc : CachePc n) :
    (s.put t c lock pc).procs = update s.procs t pc := rfl

/-- `g_cond_timed_wait` に入る。使われている base を待つ者を数える。 -/
def sleep (t : ι) (hs : Hashstr) (i : Fin n) (inUse : Bool) : CacheSys n ι :=
  let c := if inUse then s.cache.modify i fun b => { b with countWaiting := b.countWaiting + 1 }
    else s.cache
  { s.put t c none (.waiting hs i inUse) with queue := (Cache.cond i, t) :: s.queue }

/-- `g_cond_timed_wait` から戻ったときの cache -/
def awake (c : Cache n ι) (i : Fin n) (inUse : Bool) : Cache n ι :=
  if inUse then c.modify i fun b => { b with countWaiting := b.countWaiting - 1 } else c

def timeoutError (inUse : Bool) : GError :=
  if inUse then
    if 0 < cfg.openTimeout then
      ⟨codeUnavailable, "database currently in use by another request (we waited " ++
        toString cfg.openTimeout ++ "ms)"⟩
    else ⟨codeUnavailable, "database currently in use by another request"⟩
  else ⟨codeUnavailable, "Database stuck in closing state"⟩

/-- `sqlx_cache_open_and_lock_base` の loop の 1 回 -/
def openStep (s : CacheSys n ι) (t : ι) (hs : Hashstr) (now : Int) (pick : ι) :
    Option (CacheSys n ι) :=
  match s.cache.openAttempt cfg hs t now with
  | .opened c i => (s.grant t c hs i).signal i pick
  | .refused e i => (s.leave t s.cache (.failed e)).signal i pick
  | .wait i inUse => some (s.sleep t hs i inUse)
  | .expire i => (s.window t (s.cache.expireSpecificBase i t now) i (.reopen hs)).signal i pick
  | .again => some s
  | .abort => none

/-- `base_id_out` -/
def slotOf? (n : Nat) (bd : Int) : Option (Fin n) :=
  if h : 0 ≤ bd ∧ bd.toNat < n then some ⟨bd.toNat, h.2⟩ else none

/-- `sqlx_cache_unlock_and_close_base` の lock の後 -/
def closeStep (s : CacheSys n ι) (t : ι) (i : Fin n) (force : Bool) (now : Int) (pick : ι) :
    Option (CacheSys n ι) :=
  match (s.cache.bases i).status with
  | some .used =>
    let c := s.cache.modify i fun b => { b with countOpen := b.countOpen - 1 }
    if (c.bases i).countOpen ≠ 0 then (s.leave t c .closed).signal i pick
    else if force then (s.window t (c.expireBegin i now) i .forced).signal i pick
    else
      let c := c.modify i ({ · with owner := none })
      let st := if cfg.heatThreshold ≤ (c.bases i).heat then .idleHot else .idle
      (s.leave t (c.moveToList i st now) .closed).signal i pick
  | _ => none

def sweepStep (s : CacheSys n ι) (t : ι) (limit : SweepLimit) (nb : Nat) (now : Int) (pick : ι) :
    Option (CacheSys n ι) :=
  if limit.over nb now then some (s.leave t s.cache (.expired nb))
  else
    match s.cache.firstIdleBase cfg (limit.clock now) with
    | none => some (s.leave t s.cache (.expired nb))
    | some i => (s.window t (s.cache.expireSpecificBase i t now) i (.sweep limit nb)).signal i pick

/-- 呼び出しの始め。番号の検査は lock の外で行う。 -/
def callStep (s : CacheSys n ι) (t : ι) (c : CacheCall) (now : Int) (pick : ι) :
    Option (CacheSys n ι) :=
  match c with
  | .openAndLockBase hs =>
    if s.lock = none then some (s.put t s.cache (some t) (.opening hs)) else none
  | .expireAll => if s.lock = none then some (s.put t s.cache (some t) (.sweeping .all 0)) else none
  | .expire max fin =>
    if s.lock = none then some (s.put t s.cache (some t) (.sweeping (.upTo max fin) 0)) else none
  | .unlockAndCloseBase bd force =>
    match slotOf? n bd with
    | none =>
      let e : GError := ⟨500, "invalid base id=" ++ toString bd⟩
      some { s with replies := update s.replies t (some (.failed e)) }
    | some i =>
      -- 自分が開いた handle だけを閉じる。
      match s.held.find? fun h => h.thread = t ∧ h.slot = i with
      | none => none
      | some h =>
        if s.lock = none then
          closeStep cfg { s with held := s.held.erase h } t i force now pick
        else none

/-- lock を離していた thread が取り直して進む -/
def resumeStep (s : CacheSys n ι) (t : ι) (now : Int) (pick : ι) : Option (CacheSys n ι) :=
  match s.procs t with
  | .closing i hs k =>
    let c := s.cache.expireEnd i hs now
    match k with
    | .reopen want => (s.put t c (some t) (.opening want)).signal i pick
    | .forced => (s.leave t c .closed).signal i pick
    | .sweep limit nb => (s.put t c (some t) (.sweeping limit (nb + 1))).signal i pick
  | .waiting hs i inUse =>
    if (Cache.cond i, t) ∈ s.queue then none
    else some (s.put t (awake s.cache i inUse) (some t) (.opening hs))
  | .timedOut _ i inUse =>
    (s.leave t (awake s.cache i inUse) (.failed (timeoutError cfg inUse))).signal i pick
  | _ => none

/-- 系の 1 step。`timeout` は時間切れ、`stray` は偽の wake-up。 -/
def step (s : CacheSys n ι) : CacheLabel ι → Option (CacheSys n ι)
  | .call t c now pick => if s.procs t = .out then callStep cfg s t c now pick else none
  | .run t now pick =>
    if s.lock = some t then
      match s.procs t with
      | .opening hs => openStep cfg s t hs now pick
      | .sweeping limit nb => sweepStep cfg s t limit nb now pick
      | _ => none
    else none
  | .resume t now pick => if s.lock = none then resumeStep cfg s t now pick else none
  | .timeout t =>
    match s.procs t with
    | .waiting hs i inUse =>
      if 0 ≤ cfg.openTimeout then
        some { s with
          procs := update s.procs t (.timedOut hs i inUse)
          queue := s.queue.erase (Cache.cond i, t) }
      else none
    | _ => none
  | .stray t =>
    match s.procs t with
    | .waiting _ i _ => some { s with queue := s.queue.erase (Cache.cond i, t) }
    | _ => none

end CacheSys

end Redcurrant.Sqliterepo
