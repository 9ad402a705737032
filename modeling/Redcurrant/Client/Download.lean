import Redcurrant.Infra.Run
import Redcurrant.Infra.Stdio
import Redcurrant.Sqliterepo.Version

/-!
# content の download

`gs_download_content_full`（RAIN でない content）。次の byte を含む chunk の複製を順に試し、すべて
失敗すれば、error によって、やめるか探し直す。
-/

namespace Redcurrant.Client

open Infra Sqliterepo

/-! ## content -/

/-- 1 つの位置の chunk。大きさと、複製の数。 -/
structure Agregate where
  (size replicas : Nat)
  deriving DecidableEq

/-- content の chunk の列。複製の無い位置は無い。 -/
structure Layout where
  agregates : List Agregate
  replicas_pos : ∀ a ∈ agregates, 0 < a.replicas

def Layout.size (l : Layout) : Nat := (l.agregates.map (·.size)).sum

variable (l : Layout)

/-- `i` 番目の chunk の始まる所 -/
def Layout.start (i : Nat) : Nat := ((l.agregates.take i).map (·.size)).sum

def Layout.chunk (content : Bytes) (i : Nat) : Bytes :=
  (content.drop (l.start i)).take ((l.agregates[i]?.map (·.size)).getD 0)

/-! ## 進み具合 -/

structure DlStatus where
  (offset size contentDl chunkDl chunkStartOffset chunkDlOffset chunkDlSize lastPosition : Nat)
  lastPositionAttempts : Nat
  deriving DecidableEq

/-- `rawx_dl_advance_status` -/
def DlStatus.advance (st : DlStatus) (n : Nat) : DlStatus :=
  { st with
    contentDl := st.contentDl + n
    chunkDl := st.chunkDl + n
    chunkDlOffset := st.chunkDlOffset + n
    chunkDlSize := st.chunkDlSize - n }

/-- file への操作。`write i off n` は chunk `i` の `off` から `n` byte を書き、`rewind n` は長さ `n` に戻す。 -/
inductive FileOp
  | write (i off n : Nat)
  | rewind (n : Nat)
  deriving DecidableEq

def FileOp.apply (content : Bytes) (f : SeekFile) : FileOp → SeekFile
  | .write i off n => f.write (((l.chunk content i).drop off).take n)
  | .rewind n => f.rewind n

/-- 空の file に操作を順に行う -/
def output (content : Bytes) (ops : List FileOp) : SeekFile :=
  ops.foldl (FileOp.apply l content) ⟨[], 0⟩

/-! ## 複製を試す -/

/-- 複製を 1 つ試した結果。初めの `delivered` 個の byte を書く。 -/
inductive Attempt
  | success
  | failed (delivered : Nat) (code : Int)
  | callerError (delivered : Nat)
  deriving DecidableEq

/-- `download_agregate` の変数。`gerr` は呼び手に、`localGerr` は `rawx_download` が返す error の code。 -/
structure Tries where
  status : DlStatus
  ops : List FileOp
  gerr : Option Int
  localGerr : Int
  (previousError mayReload : Bool)

/-- 結果。`crashed` は NULL の error を読んだこと。 -/
inductive AgResult
  | done (status : DlStatus) (ops : List FileOp) (gerr : Option Int)
  | failed (status : DlStatus) (ops : List FileOp) (mayReload : Bool) (code : Int)
  | callerError (ops : List FileOp)
  | crashed (ops : List FileOp)

/-- 前の複製も失敗していれば code を比べる。前の error が無ければ NULL を読む。 -/
def nextCode (previousError : Bool) (gerr : Option Int) (code fresh : Int) : Option Int :=
  if previousError then gerr.map fun c => if c ≠ code then 600 else fresh else some fresh

/-- 複製を順に試す。`saved` は始めの写しである。 -/
def tryReplicas (saved : DlStatus) (i : Nat) : List Attempt → Tries → AgResult
  | [], t => .failed t.status t.ops t.mayReload (t.gerr.getD 0)
  | .success :: _, t =>
    .done (saved.advance saved.chunkDlSize)
      (t.ops ++ [.write i saved.chunkDlOffset saved.chunkDlSize]) t.gerr
  | .callerError n :: _, t =>
    .callerError (t.ops ++ [.write i saved.chunkDlOffset (min n saved.chunkDlSize)])
  | .failed n code :: rest, t =>
    let status := saved.advance (min n saved.chunkDlSize)
    let back := if saved.contentDl < status.contentDl then [.rewind saved.contentDl] else []
    let ops := t.ops ++ .write i saved.chunkDlOffset (min n saved.chunkDlSize) :: back
    let e := if code ≠ 0 then code else t.localGerr
    let t := { t with status := status, ops := ops, localGerr := e }
    if e = 425 then
      tryReplicas saved i rest { t with gerr := some 425, previousError := true }
    else if e = 1 then
      match nextCode t.previousError t.gerr e 1 with
      | none => .crashed ops
      | some c => tryReplicas saved i rest { t with gerr := some c, previousError := true }
    else if e = 1404 ∨ e = 1410 ∨ e = 1416 then
      match nextCode t.previousError t.gerr e 423 with
      | none => .crashed ops
      | some c =>
        tryReplicas saved i rest { t with gerr := some c, previousError := true, mayReload := true }
    else tryReplicas saved i rest { t with previousError := true }

def downloadAgregate (status : DlStatus) (ops : List FileOp) (i replicas : Nat)
    (outcome : Nat → Attempt) : AgResult :=
  tryReplicas status i ((List.range replicas).map outcome) ⟨status, ops, none, 0, false, false⟩

/-! ## chunk を探す -/

def DlStatus.countAttempt (st : DlStatus) (i : Nat) : DlStatus :=
  if i ≠ st.lastPosition then
    { st with chunkDl := 0, lastPositionAttempts := 1, lastPosition := i }
  else { st with lastPositionAttempts := st.lastPositionAttempts + 1 }

/-- `download_jump_to_target` の loop -/
def jumpFrom (wanted remaining : Nat) (st : DlStatus) :
    List Agregate → Nat → Except String (DlStatus × Nat × Agregate)
  | [], _ => .error "Offset/Size pair not satisfiable"
  | ag :: rest, i =>
    if wanted < st.chunkStartOffset + ag.size then
      let off := wanted - st.chunkStartOffset
      let st := st.countAttempt i
      if 3 < st.lastPositionAttempts then
        .error ("Too many DL attempts on agregate " ++ toString i)
      else
        .ok ({ st with chunkDlOffset := off, chunkDlSize := min (ag.size - off) remaining }, i, ag)
    else
      jumpFrom wanted remaining { st with chunkStartOffset := st.chunkStartOffset + ag.size } rest
        (i + 1)

/-- `download_jump_to_target` -/
def jumpToTarget (st : DlStatus) : Except String (DlStatus × Nat × Agregate) :=
  jumpFrom (st.offset + st.contentDl) (st.size - st.contentDl)
    { st with chunkStartOffset := 0, chunkDlOffset := 0, chunkDlSize := 0 } l.agregates 0

/-! ## loop -/

inductive DlPhase
  | running
  | ok
  | error (e : GError)
  | crashed
  deriving DecidableEq

/-- `gs_download_content_full` の変数。`localGerr` は前の回の code。 -/
structure DlState where
  status : DlStatus
  ops : List FileOp
  localGerr : Option Int
  phase : DlPhase

def DlState.round (s : DlState) (outcome : Nat → Attempt) : DlState :=
  if s.status.size ≤ s.status.contentDl then { s with phase := .ok }
  else
    match jumpToTarget l s.status with
    | .error _ =>
      match s.localGerr with
      | some c => { s with phase := .error ⟨c, "Chunk agregate not/partially downloaded"⟩ }
      | none => { s with phase := .error ⟨423, "No chunk matches"⟩ }
    | .ok (st, i, ag) =>
      match downloadAgregate st s.ops i ag.replicas outcome with
      | .done st ops gerr => { s with status := st, ops := ops, localGerr := gerr }
      | .callerError ops => { s with ops := ops, phase := .error ⟨0, "Caller error"⟩ }
      | .crashed ops => { s with ops := ops, phase := .crashed }
      | .failed st ops mayReload code =>
        if code = 425 then { s with ops := ops, phase := .error ⟨425, "Corruption detected."⟩ }
        else if mayReload then
          { s with ops := ops, phase := .error ⟨code, "Too many reload attempts"⟩ }
        else { s with status := st, ops := ops, localGerr := some code }

def DlState.step (s : DlState) (outcome : Nat → Attempt) : Option DlState :=
  match s.phase with
  | .running => some (s.round l outcome)
  | _ => none

/-! ## 要求 -/

/-- `gs_download_info_t` の範囲 -/
structure DlRequest where
  (offset size : Int)
  deriving DecidableEq

/-- 大きさ 0 は終わりまでを表す -/
def DlRequest.length (r : DlRequest) (l : Layout) : Int :=
  if r.size = 0 then (l.size : Int) - r.offset else r.size

def DlRequest.start (r : DlRequest) (l : Layout) : Except GError DlState :=
  if r.offset < 0 then .error ⟨0, "Negative download offset"⟩
  else if r.size < 0 then .error ⟨0, "Negative download size"⟩
  else if (l.size : Int) < r.offset ∨ (l.size : Int) < r.offset + r.length l then
    .error ⟨400, "Byte range not satisfiable asked=[" ++ toString r.offset ++ "," ++
      toString (r.offset + r.length l) ++ "] allowed=[0," ++ toString l.size ++ "]"⟩
  else .ok ⟨⟨r.offset.toNat, (r.length l).toNat, 0, 0, 0, 0, 0, 0, 0⟩, [], none, .running⟩

end Redcurrant.Client
