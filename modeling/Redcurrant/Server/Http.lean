import Redcurrant.Infra.Loop
import Redcurrant.Server.Slab

/-!
# HTTP の transport

`http_parse` は command の行、header の行、`Content-Length` の長さの body を届いた分だけ読む。
-/

namespace Redcurrant.Server

open Infra List

/-! ## parser -/

/-- `enum http_parser_step_e` -/
inductive HttpStep
  | firstR0 | firstN0 | sepR0 | sepN0 | headersR0 | headersN0 | bodyAsis
  deriving DecidableEq

structure HttpParser where
  step : HttpStep
  error : Option String
  buf : Bytes
  (contentRead contentLength : Int)
  deriving DecidableEq

/-- `struct http_request_s`。`treeHeaders` の key は小文字。 -/
structure HttpRequest where
  (cmd reqUri version : Option Bytes)
  treeHeaders : List (Bytes × Bytes)
  body : Bytes
  deriving DecidableEq

/-- `struct transport_client_context_s` -/
structure HttpCtx where
  parser : HttpParser
  request : HttpRequest
  deriving DecidableEq

def httpParserReset : HttpParser := ⟨.firstR0, none, [], 0, -1⟩

def httpRequestCreate : HttpRequest := ⟨none, none, none, [], []⟩

def HttpCtx.init : HttpCtx := ⟨httpParserReset, httpRequestCreate⟩

/-- `gstr_chomp`。長さは変わらない。 -/
def gstrChomp (b : Bytes) : Bytes :=
  let n := (b.reverse.dropWhile fun c => c == 10 || c == 13).length
  b.take n ++ replicate (b.length - n) 0

/-- `g_tree_replace` -/
def treeReplace (t : List (Bytes × Bytes)) (k v : Bytes) : List (Bytes × Bytes) :=
  (k, v) :: t.filter (·.1 ≠ k)

/-- `g_tree_lookup` -/
def treeLookup (t : List (Bytes × Bytes)) (k : Bytes) : Option Bytes :=
  (t.find? (·.1 = k)).map (·.2)

variable (c : HttpCtx)

def HttpCtx.setBuf (buf : Bytes) : HttpCtx := { c with parser.buf := buf }

def HttpCtx.setStep (step : HttpStep) : HttpCtx := { c with parser.step := step }

/-- `_manage_and_renew_command` -/
def HttpCtx.manageCommand : Bool × HttpCtx :=
  if c.parser.buf = [] then (false, c)
  else
    let buf := gstrChomp c.parser.buf
    match splitAtChar 32 (cstr buf) with
    | none => (false, c.setBuf buf)
    | some (cmd, rest) =>
      match splitAtLast 32 rest with
      | none => (false, c.setBuf (buf.set cmd.length 0))
      | some (selector, version) =>
        (true, { c.setBuf [] with request := { c.request with
          cmd := some cmd
          reqUri := some selector
          version := some version } })

/-- `_manage_and_renew_header` -/
def HttpCtx.manageHeader : Bool × HttpCtx :=
  if c.parser.buf = [] then (true, c)
  else
    let buf := gstrChomp c.parser.buf
    match splitAtChar 58 (cstr buf) with
    | none => (false, c.setBuf buf)
    | some (name, rest) =>
      if rest.head? ≠ some 32 then (false, c.setBuf (buf.set name.length 0))
      else
        let value := rest.tail
        (true,
          { parser := { c.parser with
              buf := []
              contentLength := if strcaseeq name (ascii "Content-Length") then strtoll value
                else c.parser.contentLength }
            request := { c.request with
              treeHeaders := treeReplace c.request.treeHeaders (name.map toLower) value } })

inductive HttpVerdict
  | success
  | error
  deriving DecidableEq

def HttpCtx.fail (msg : String) : HttpCtx := { c with parser.error := some msg }

/-- body の外の loop の 1 回。終われば、読んだ数と理由。 -/
def HttpCtx.byte (d : UInt8) : HttpCtx × Option (Nat × HttpVerdict) :=
  match c.parser.step with
  | .firstR0 =>
    if d = 13 then (c.setStep .firstN0, none) else (c.setBuf (c.parser.buf ++ [d]), none)
  | .firstN0 =>
    if d = 10 then
      match c.manageCommand with
      | (false, c) => (c.fail "CMD parsing error", some (0, .error))
      | (true, c) => (c.setStep .sepR0, none)
    else (c.fail "CMD parsing error", some (0, .error))
  | .sepR0 =>
    if d = 13 then (c.setStep .sepN0, none)
    else
      match c.manageHeader with
      | (false, c) => (c.fail "HDR parsing error", some (0, .error))
      | (true, c) => ((c.setBuf (c.parser.buf ++ [d])).setStep .headersR0, none)
  | .sepN0 =>
    if d = 10 then
      match c.manageHeader with
      | (false, c) => (c.fail "HDR parsing error", some (1, .error))
      | (true, c) =>
        if c.parser.contentLength ≤ c.parser.contentRead then
          (c.setStep .bodyAsis, some (1, .success))
        else (c.setStep .bodyAsis, none)
    else (c.fail "SEP parsing error", some (0, .error))
  | .headersR0 =>
    if d = 13 then (c.setStep .headersN0, none) else (c.setBuf (c.parser.buf ++ [d]), none)
  | .headersN0 =>
    if d = 10 then (c.setStep .sepR0, none)
    else (c.fail "HDR parsing error", some (0, .error))
  | .bodyAsis => (c, none)

def HttpCtx.copyBody (data : Bytes) (n : Nat) : HttpCtx :=
  { parser := { c.parser with contentRead := c.parser.contentRead + n }
    request := { c.request with body := c.request.body ++ data.take n } }

/-- `http_parse`。文脈、読んだ数、終わった理由。`none` は `HPRC_MORE`。 -/
def httpParse (c : HttpCtx) : Bytes → HttpCtx × Nat × Option HttpVerdict
  | [] => (c, 0, none)
  | d :: rest =>
    if c.parser.step = .bodyAsis then
      let n := min (rest.length + 1) (c.parser.contentLength - c.parser.contentRead).toNat
      let c := c.copyBody (d :: rest) n
      if c.parser.contentLength ≤ c.parser.contentRead then (c, n, some .success)
      else (c, n, none)  -- すべて写したので、loop は終わる
    else
      match c.byte d with
      | (c, some (n, v)) => (c, n, some v)
      | (c, none) =>
        let (c, n, v) := httpParse c rest
        (c, n + 1, v)

/-! ## dispatcher -/

inductive HttpRc
  | done
  | next
  | abort
  deriving DecidableEq

/-- handler の列。結果は request によってよい。 -/
abbrev HttpDispatcher := List (List HttpRequest → HttpRequest → HttpRc)

/-- 接続を続けるか（`finalize`）。HTTP/1.1 でなければ前のまま。 -/
def HttpRequest.closeAfter (q : HttpRequest) (close : Bool) : Bool :=
  if q.version.all (strcaseeq (ascii "HTTP/1.1")) then
    !((treeLookup q.treeHeaders (ascii "connection")).any (strcaseeq (ascii "Keep-Alive")))
  else close

variable (d : HttpDispatcher)

/-- handler を順に呼ぶ。`true` は handler が失敗したこと。 -/
def HttpDispatcher.aborts (past : List HttpRequest) (q : HttpRequest) : Bool :=
  (d.map fun h => h past q).find? (· ≠ .next) = some .abort

/-- `http_manage_request`。error の有無と、接続を閉じるかを返す。 -/
def httpManageRequest (past : List HttpRequest) (q : HttpRequest) (close : Bool) : Bool × Bool :=
  if q.reqUri = none ∨ q.cmd = none then (false, q.closeAfter close)
  else (d.aborts past q, q.closeAfter close)

/-! ## 接続 -/

/-- 接続の状態。`handed` は渡した request、`close` は `close_after_request`、`closing` は入力を止めて出力を閉じたこと。 -/
structure HttpClient where
  input : List Slab
  ctx : HttpCtx
  handed : List HttpRequest
  (close closing : Bool)

/-- slab の byte を読んだ後の状態と、loop を終えるか -/
def HttpClient.parsed (c : HttpClient) (data : Bytes) : HttpClient × Bool :=
  match httpParse c.ctx data with
  | (ctx, _, none) => ({ c with ctx := ctx }, false)
  | (ctx, _, some .error) => ({ c with ctx := ctx, closing := true }, true)
  | (ctx, _, some .success) =>
    let (err, close) := httpManageRequest d c.handed ctx.request c.close
    ({ c with
        ctx := .init
        handed := c.handed ++ [ctx.request]
        close := close
        closing := c.closing || err || close }, err || close)

/-- `http_notify_input` の loop の 1 回 -/
def HttpClient.turn (c : HttpClient) : Turn HttpClient Unit :=
  match sequenceHasData c.input with
  | (false, input) => .stop { c with input := input } ()
  | (true, input) =>
    match sequenceShift input with
    | none => .stop { c with input := input } ()
    | some (slab, input) =>
      match slab.consume (2 ^ 64 - 1) with
      | none => .again { c with input := input }
      | some (data, slab) =>
        if data = [] then .again { c with input := input }
        else
          let (c, done) := c.parsed d data
          let c := { c with input := sequenceUnshift input slab }
          if done then .stop c () else .again c

/-! ## loop -/

/-- 列の slab の、空でない中身 -/
def chunks (q : List Slab) : List Bytes := (q.map Slab.bytes).filter (· ≠ [])

theorem chunks_cons_of_hasData {ds : Slab} (h : ds.hasData = true) (q : List Slab) :
    chunks (ds :: q) = ds.bytes :: chunks q := by
  rw [chunks, map_cons, filter_cons_of_pos (by simpa using Slab.hasData_iff.mp h), chunks]

theorem chunks_cons_of_nil {ds : Slab} (h : ds.bytes = []) (q : List Slab) :
    chunks (ds :: q) = chunks q := by
  rw [chunks, map_cons, filter_cons_of_neg (by simpa using h), chunks]

theorem chunks_append (q q' : List Slab) : chunks (q ++ q') = chunks q ++ chunks q' := by
  rw [chunks, map_append, filter_append, chunks, chunks]

theorem sequenceHasData_chunks : ∀ q : List Slab,
    (sequenceHasData q = (false, []) ∧ chunks q = []) ∨
      ∃ ds q', sequenceHasData q = (true, ds :: q') ∧ ds.hasData = true ∧
        chunks q = ds.bytes :: chunks q' ∧ q'.length < q.length
  | [] => .inl ⟨rfl, rfl⟩
  | ds :: q => by
    rw [sequenceHasData]
    by_cases hd : ds.hasData = true
    · rw [if_pos hd]
      exact .inr ⟨ds, q, rfl, hd, chunks_cons_of_hasData hd q, Nat.lt_succ_self _⟩
    rw [if_neg hd, chunks_cons_of_nil (Slab.bytes_eq_nil (Bool.eq_false_iff.mpr hd))]
    rcases sequenceHasData_chunks q with hnil | ⟨ds', q', heq, hd', hchunks, hlt⟩
    · exact .inl hnil
    · exact .inr ⟨ds', q', heq, hd', hchunks, Nat.lt_succ_of_lt hlt⟩

theorem httpTurn_cases (c : HttpClient) :
    (chunks c.input = [] ∧ c.turn d = .stop { c with input := [] } ()) ∨
      ∃ (x : Bytes) (q : List Slab), x ≠ [] ∧ chunks c.input = x :: chunks q ∧
        q.length < c.input.length ∧
        c.turn d = if (c.parsed d x).2 then .stop { (c.parsed d x).1 with input := q } ()
          else .again { (c.parsed d x).1 with input := q } := by
  rw [HttpClient.turn]
  rcases sequenceHasData_chunks c.input with ⟨heq, hnil⟩ | ⟨ds, q, heq, hd, hchunks, hlt⟩
  · rw [heq]
    exact .inl ⟨hnil, rfl⟩
  have hne := Slab.hasData_iff.mp hd
  obtain ⟨ds', hconsume, hrest⟩ := ds.consume_eq hd (2 ^ 64 - 1)
  have hlen : ds.bytes.length ≤ 2 ^ 64 - 1 := by
    have := ds.length_bytes
    have := ds.stop_le
    have := ds.alloc_lt
    omega
  have hnil : ds'.hasData = false := by
    refine Bool.eq_false_iff.mpr fun h => Slab.hasData_iff.mp h ?_
    rw [hrest, drop_eq_nil_of_le hlen]
  rw [take_of_length_le hlen] at hconsume
  refine .inr ⟨ds.bytes, q, hne, hchunks, hlt, ?_⟩
  simp only [heq, sequenceShift, hconsume, if_neg hne, sequenceUnshift, hnil, Bool.false_eq_true,
    if_false]

theorem httpTurn_again {d : HttpDispatcher} {c c' : HttpClient} (h : c.turn d = .again c') :
    c'.input.length < c.input.length := by
  rcases httpTurn_cases d c with ⟨-, hturn⟩ | ⟨x, q, -, -, hlt, hturn⟩ <;> rw [hturn] at h
  · cases h
  · split at h <;> cases h
    exact hlt

/-- `http_notify_input` -/
def HttpClient.notifyInput (c : HttpClient) : HttpClient :=
  (loop (HttpClient.turn d) (·.input.length) httpTurn_again { c with close := true }).1

/-- network から 1 回読む（`_client_manage_input`） -/
def HttpClient.manageInput (c : HttpClient) (slabs : List Slab) : HttpClient :=
  match sequenceHasData (feed c.input slabs) with
  | (false, _) => { c with input := [] }
  | (true, input) => ({ c with input := input } : HttpClient).notifyInput d

def HttpClient.init : HttpClient := ⟨[], .init, [], true, false⟩

/-- 何回か読んだ後までに dispatcher に渡した request -/
def httpHanded (reads : List (List Slab)) : List HttpRequest :=
  (reads.foldl (HttpClient.manageInput d) .init).handed

end Redcurrant.Server
