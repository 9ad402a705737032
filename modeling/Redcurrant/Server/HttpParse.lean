import Redcurrant.Server.Http

/-!
# HTTP の request を読む

`http_parse` は途中から続けられ（`resumable_httpParse`）、書いた request を読む（`httpParse_encode`）。
-/

namespace Redcurrant.Server

open Infra List Option HttpCtx

/-! ## 続きから読む -/

section

variable {c : HttpCtx} {d : UInt8} {x y : Bytes}

theorem httpParse_body (h : c.parser.step = .bodyAsis) (hx : x ≠ []) : httpParse c x =
    (c.copyBody x (min x.length (c.parser.contentLength - c.parser.contentRead).toNat),
      min x.length (c.parser.contentLength - c.parser.contentRead).toNat,
      if x.length < c.parser.contentLength - c.parser.contentRead then none
      else some .success) := by
  cases x with
  | nil => exact absurd rfl hx
  | cons d rest =>
    have hiff : c.parser.contentLength ≤ c.parser.contentRead +
        (min (rest.length + 1) (c.parser.contentLength - c.parser.contentRead).toNat : Nat) ↔
        ¬ ((d :: rest).length : Int) < c.parser.contentLength - c.parser.contentRead := by
      rw [length_cons]
      omega
    rw [httpParse, if_pos h]
    by_cases hlt : ((d :: rest).length : Int) < c.parser.contentLength - c.parser.contentRead
    · rw [if_pos hlt]
      exact if_neg fun hle => hiff.mp hle hlt
    · rw [if_neg hlt]
      exact if_pos (hiff.mpr hlt)

theorem httpParse_byte_done {c' : HttpCtx} {n : Nat} {v : HttpVerdict}
    (hbody : c.parser.step ≠ .bodyAsis) (h : c.byte d = (c', some (n, v))) (x : Bytes) :
    httpParse c (d :: x) = (c', n, some v) := by
  rw [httpParse, if_neg hbody, h]

theorem httpParse_byte_next {c' : HttpCtx} (hbody : c.parser.step ≠ .bodyAsis)
    (h : c.byte d = (c', none)) (x : Bytes) :
    httpParse c (d :: x) = ((httpParse c' x).1, (httpParse c' x).2.1 + 1, (httpParse c' x).2.2) := by
  rw [httpParse, if_neg hbody, h]

theorem byte_consumed_le {c' : HttpCtx} {n : Nat} {v : HttpVerdict}
    (h : c.byte d = (c', some (n, v))) : n ≤ 1 := by
  unfold byte at h
  split at h
  · split at h <;> cases h
  · split at h
    · split at h <;> cases h
      exact Nat.zero_le _
    · cases h
      exact Nat.zero_le _
  · split at h
    · cases h
    · split at h <;> cases h
      exact Nat.zero_le _
  · split at h
    · split at h
      · cases h
        exact Nat.le_refl _
      · split at h <;> cases h
        exact Nat.le_refl _
    · cases h
      exact Nat.zero_le _
  · split at h <;> cases h
  · split at h <;> cases h
    exact Nat.zero_le _
  · cases h

section

variable (c : HttpCtx)

theorem copyBody_append {n : Nat} (x y : Bytes) :
    (c.copyBody x x.length).copyBody y n = c.copyBody (x ++ y) (x.length + n) := by
  rw [copyBody, copyBody, copyBody, take_length, append_assoc,
    take_length_add_append, Int.natCast_add, Int.add_assoc]

theorem copyBody_take {n : Nat} {x : Bytes} (y : Bytes) (h : n ≤ x.length) :
    c.copyBody (x ++ y) n = c.copyBody x n := by
  rw [copyBody, copyBody, take_append_of_le_length h]

theorem httpParse_consumed_le (x : Bytes) : (httpParse c x).2.1 ≤ x.length := by
  induction x generalizing c with
  | nil => exact Nat.le_refl _
  | cons d x ih =>
    by_cases hbody : c.parser.step = .bodyAsis
    · rw [httpParse_body hbody (cons_ne_nil _ _)]
      exact Nat.min_le_left _ _
    rcases hbyte : c.byte d with ⟨c', _ | ⟨n, v⟩⟩
    · rw [httpParse_byte_next hbody hbyte]
      exact Nat.succ_le_succ (ih c')
    · rw [httpParse_byte_done hbody hbyte]
      exact Nat.le_trans (byte_consumed_le hbyte) (Nat.succ_le_succ (Nat.zero_le _))

theorem httpParse_resume_done (x y : Bytes) (h : (httpParse c x).2.2 ≠ none) :
    httpParse c (x ++ y) = httpParse c x := by
  induction x generalizing c with
  | nil => exact absurd rfl h
  | cons d x ih =>
    by_cases hbody : c.parser.step = .bodyAsis
    · have hlt : ¬ ((d :: x).length : Int) < c.parser.contentLength - c.parser.contentRead := by
        intro hlt
        rw [httpParse_body hbody (cons_ne_nil _ _), if_pos hlt] at h
        exact h rfl
      have hle : (d :: x).length ≤ (d :: x ++ y).length := by
        rw [length_append]
        exact Nat.le_add_right _ _
      rw [httpParse_body hbody (cons_ne_nil _ _), httpParse_body hbody (by simp), if_neg hlt,
        if_neg (by omega), Nat.min_eq_right (by omega), Nat.min_eq_right (by omega),
        copyBody_take c y (by omega)]
    · rw [cons_append]
      rcases hbyte : c.byte d with ⟨c', _ | ⟨n, v⟩⟩
      · rw [httpParse_byte_next hbody hbyte] at h ⊢
        rw [httpParse_byte_next hbody hbyte, ih c' h]
      · rw [httpParse_byte_done hbody hbyte, httpParse_byte_done hbody hbyte]

theorem httpParse_resume_more (x y : Bytes) (h : (httpParse c x).2.2 = none) :
    httpParse c (x ++ y) = ((httpParse (httpParse c x).1 y).1,
      (httpParse c x).2.1 + (httpParse (httpParse c x).1 y).2.1,
      (httpParse (httpParse c x).1 y).2.2) := by
  induction x generalizing c with
  | nil => rw [nil_append, httpParse, Nat.zero_add]
  | cons d x ih =>
    by_cases hbody : c.parser.step = .bodyAsis
    · have hlt : ((d :: x).length : Int) < c.parser.contentLength - c.parser.contentRead := by
        by_contra hlt
        rw [httpParse_body hbody (cons_ne_nil _ _), if_neg hlt] at h
        cases h
      rw [httpParse_body hbody (cons_ne_nil d x), Nat.min_eq_left (by omega)]
      cases y with
      | nil =>
        rw [append_nil, httpParse_body hbody (cons_ne_nil _ _), if_pos hlt,
          Nat.min_eq_left (by omega)]
        rfl
      | cons e y =>
        have hbody' : (c.copyBody (d :: x) (d :: x).length).parser.step = .bodyAsis := hbody
        have hleft : (c.copyBody (d :: x) (d :: x).length).parser.contentLength -
            (c.copyBody (d :: x) (d :: x).length).parser.contentRead =
            c.parser.contentLength - c.parser.contentRead - (d :: x).length := by
          simp only [copyBody]
          omega
        rw [httpParse_body hbody (by simp), httpParse_body hbody' (cons_ne_nil _ _), hleft,
          copyBody_append, length_append]
        generalize (d :: x).length = m at hlt
        generalize (e :: y).length = n
        have hmin : min (m + n) (c.parser.contentLength - c.parser.contentRead).toNat =
            m + min n (c.parser.contentLength - c.parser.contentRead - m).toNat := by omega
        have hif : ((m + n : Nat) : Int) < c.parser.contentLength - c.parser.contentRead ↔
            (n : Int) < c.parser.contentLength - c.parser.contentRead - m := by omega
        rw [hmin]
        simp only [hif]
    · rw [cons_append]
      rcases hbyte : c.byte d with ⟨c', _ | ⟨n, v⟩⟩
      · rw [httpParse_byte_next hbody hbyte] at h ⊢
        rw [httpParse_byte_next hbody hbyte, ih c' h]
        simp only [Nat.add_right_comm]
      · rw [httpParse_byte_done hbody hbyte] at h
        cases h

end

/-- **`http_parse` は続きから読んでも、合わせて読むのと同じ。** -/
theorem resumable_httpParse : Resumable httpParse :=
  ⟨httpParse_consumed_le, fun h y => httpParse_resume_more _ _ y h,
    fun h y => httpParse_resume_done _ _ y h⟩

end

/-! ## request の byte 列 -/

/-- header の宣言する body の長さ。無ければ `-1`。 -/
def declaredLength (headers : List (Bytes × Bytes)) : Int :=
  headers.foldl (fun n h => if strcaseeq h.1 (ascii "Content-Length") then strtoll h.2 else n) (-1)

/-- HTTP/1.1 の request。header は `name: value`、body は宣言された長さ。 -/
structure HttpMessage where
  (cmd uri : Bytes)
  headers : List (Bytes × Bytes)
  body : Bytes
  cmd_ok : ∀ b ∈ cmd, b ≠ 32 ∧ b ≠ 13 ∧ b ≠ 0
  uri_ok : ∀ b ∈ uri, b ≠ 13 ∧ b ≠ 0
  name_ok : ∀ h ∈ headers, ∀ b ∈ h.1, b ≠ 58 ∧ b ≠ 13 ∧ b ≠ 0
  value_ok : ∀ h ∈ headers, ∀ b ∈ h.2, b ≠ 13 ∧ b ≠ 10 ∧ b ≠ 0
  sized : body.length = (declaredLength headers).toNat

def headerLine (h : Bytes × Bytes) : Bytes := h.1 ++ 58 :: 32 :: h.2

variable (r : HttpMessage)

def HttpMessage.commandLine : Bytes := r.cmd ++ 32 :: (r.uri ++ 32 :: ascii "HTTP/1.1")

def HttpMessage.encode : Bytes :=
  r.commandLine ++ 13 :: 10 :: (r.headers.flatMap (fun h => headerLine h ++ [13, 10]) ++
    13 :: 10 :: r.body)

def HttpMessage.request : HttpRequest :=
  { cmd := some r.cmd
    reqUri := some r.uri
    version := some (ascii "HTTP/1.1")
    treeHeaders := r.headers.foldl (fun t h => treeReplace t (h.1.map toLower) h.2) []
    body := r.body }

/-! ## 行を読む -/

/-- すでに `n` byte を読んだ後の結果 -/
def after (n : Nat) (r : HttpCtx × Nat × Option HttpVerdict) : HttpCtx × Nat × Option HttpVerdict :=
  (r.1, r.2.1 + n, r.2.2)

open HttpMessage

theorem after_after (m n : Nat) (r : HttpCtx × Nat × Option HttpVerdict) :
    after m (after n r) = after (m + n) r := by
  rw [after, after, after, Nat.add_assoc, Nat.add_comm n m]

theorem gstrChomp_eq {l : Bytes} (h : ∀ b ∈ l.getLast?, b ≠ 10 ∧ b ≠ 13) : gstrChomp l = l := by
  rcases eq_nil_or_concat l with rfl | ⟨l, b, rfl⟩
  · rfl
  · have hb := h b (by simp)
    simp [gstrChomp, hb.1, hb.2, take_of_length_le]

section

variable {c : HttpCtx}

theorem httpParse_line {tail : Bytes} : ∀ {l : Bytes} {c : HttpCtx},
    c.parser.step = .firstR0 ∨ c.parser.step = .headersR0 → 13 ∉ l →
    httpParse c (l ++ tail) = after l.length (httpParse (c.setBuf (c.parser.buf ++ l)) tail)
  | [], c, _, _ => by
    rw [append_nil]
    rfl
  | d :: l, c, hstep, hl => by
    obtain ⟨hd, hl⟩ := not_or.mp (mt mem_cons.mpr hl)
    have hbyte : c.byte d = (c.setBuf (c.parser.buf ++ [d]), none) := by
      rcases hstep with hstep | hstep <;> rw [byte, hstep] <;> exact if_neg (Ne.symm hd)
    have hbody : c.parser.step ≠ .bodyAsis := by
      rcases hstep with hstep | hstep <;> rw [hstep] <;> decide
    rw [cons_append, httpParse_byte_next hbody hbyte, ← after,
      httpParse_line (c := c.setBuf (c.parser.buf ++ [d])) hstep hl, after_after, Nat.add_comm 1]
    simp [setBuf]

theorem manageCommand_line {r : HttpMessage} (hbuf : c.parser.buf = r.commandLine) :
    c.manageCommand = (true, { c.setBuf [] with request := { c.request with
      cmd := some r.cmd
      reqUri := some r.uri
      version := some (ascii "HTTP/1.1") } }) := by
  have hne : r.commandLine ≠ [] := by simp [commandLine]
  have hlast : ∀ b ∈ r.commandLine.getLast?, b ≠ 10 ∧ b ≠ 13 := by
    have hline : r.commandLine = (r.cmd ++ 32 :: (r.uri ++ 32 :: ascii "HTTP/1.")) ++ [49] := by
      simp [commandLine, ascii]
    rw [hline, getLast?_concat]
    intro b hb
    obtain rfl := mem_some_iff.mp hb
    decide
  have hzero : 0 ∉ r.commandLine := by
    intro hmem
    simp only [commandLine, mem_append, mem_cons] at hmem
    rcases hmem with hmem | hmem | hmem | hmem | hmem
    · exact (r.cmd_ok 0 hmem).2.2 rfl
    · exact absurd hmem (by decide)
    · exact (r.uri_ok 0 hmem).2 rfl
    · exact absurd hmem (by decide)
    · exact absurd hmem (by decide)
  have hspace : 32 ∉ r.cmd := fun hmem => (r.cmd_ok 32 hmem).1 rfl
  have hcmd : splitAtChar 32 (cstr (gstrChomp c.parser.buf)) =
      some (r.cmd, r.uri ++ 32 :: ascii "HTTP/1.1") := by
    rw [hbuf, gstrChomp_eq hlast, cstr_eq_self hzero, commandLine, splitAtChar_append hspace]
  have hversion : splitAtLast 32 (r.uri ++ 32 :: ascii "HTTP/1.1") =
      some (r.uri, ascii "HTTP/1.1") := splitAtLast_append (by decide)
  rw [manageCommand, if_neg (hbuf ▸ hne)]
  simp only [hcmd, hversion]

def HttpCtx.addHeader (c : HttpCtx) (h : Bytes × Bytes) : HttpCtx :=
  { parser := { c.parser with
      buf := []
      contentLength := if strcaseeq h.1 (ascii "Content-Length") then strtoll h.2
        else c.parser.contentLength }
    request := { c.request with
      treeHeaders := treeReplace c.request.treeHeaders (h.1.map toLower) h.2 } }

theorem manageHeader_line {h : Bytes × Bytes} (hname : ∀ b ∈ h.1, b ≠ 58 ∧ b ≠ 13 ∧ b ≠ 0)
    (hvalue : ∀ b ∈ h.2, b ≠ 13 ∧ b ≠ 10 ∧ b ≠ 0) (hbuf : c.parser.buf = headerLine h) :
    c.manageHeader = (true, c.addHeader h) := by
  have hne : headerLine h ≠ [] := by simp [headerLine]
  have hlast : ∀ b ∈ (headerLine h).getLast?, b ≠ 10 ∧ b ≠ 13 := by
    intro b hb
    rw [headerLine, getLast?_append, getLast?_eq_some_getLast (cons_ne_nil _ _), some_or, mem_some] at hb
    rcases mem_cons.mp (hb ▸ getLast_mem (cons_ne_nil 32 h.2)) with rfl | hmem
    · decide
    · exact ⟨(hvalue b hmem).2.1, (hvalue b hmem).1⟩
  have hzero : 0 ∉ headerLine h := by
    intro hmem
    simp only [headerLine, mem_append, mem_cons] at hmem
    rcases hmem with hmem | hmem | hmem | hmem
    · exact (hname 0 hmem).2.2 rfl
    · exact absurd hmem (by decide)
    · exact absurd hmem (by decide)
    · exact (hvalue 0 hmem).2.2 rfl
  have hcolon : 58 ∉ h.1 := fun hmem => (hname 58 hmem).1 rfl
  have hsplit : splitAtChar 58 (cstr (gstrChomp c.parser.buf)) = some (h.1, 32 :: h.2) := by
    rw [hbuf, gstrChomp_eq hlast, cstr_eq_self hzero, headerLine, splitAtChar_append hcolon]
  rw [manageHeader, if_neg (hbuf ▸ hne)]
  simp only [hsplit, head?_cons, ne_eq, not_true_eq_false, if_false, tail_cons]
  rfl

theorem manageHeader_setStep (c : HttpCtx) (step : HttpStep) :
    (c.setStep step).manageHeader = (c.manageHeader.1, c.manageHeader.2.setStep step) := by
  have hbuf : (c.setStep step).parser.buf = c.parser.buf := rfl
  unfold manageHeader
  rw [hbuf]
  split
  · rfl
  simp only
  split
  · rfl
  · split <;> rfl

theorem setStep_ne_body {step : HttpStep} (h : step ≠ .bodyAsis) :
    (c.setStep step).parser.step ≠ .bodyAsis := h

/-- header が終わった所。body が無ければ、request はここで終わる。 -/
def HttpCtx.endHeaders (c : HttpCtx) (tail : Bytes) : HttpCtx × Nat × Option HttpVerdict :=
  if c.parser.contentLength ≤ c.parser.contentRead then (c.setStep .bodyAsis, 0, some .success)
  else httpParse (c.setStep .bodyAsis) tail

section

variable {c1 : HttpCtx} (hstep : c.parser.step = .sepR0) (hmanage : c.manageHeader = (true, c1))
include hstep hmanage

theorem httpParse_emptyLine (tail : Bytes) :
    httpParse c (13 :: 10 :: tail) = after 2 (c1.endHeaders tail) := by
  have hcr : c.byte 13 = (c.setStep .sepN0, none) := by
    rw [byte, hstep]
    rfl
  have hlf : (c.setStep .sepN0).byte 10 =
      if c1.parser.contentLength ≤ c1.parser.contentRead then
        (c1.setStep .bodyAsis, some (1, .success))
      else (c1.setStep .bodyAsis, none) := by
    rw [byte, manageHeader_setStep, hmanage]
    rfl
  have hbody : c.parser.step ≠ .bodyAsis := by rw [hstep]; decide
  have hbody' : (c.setStep .sepN0).parser.step ≠ .bodyAsis := setStep_ne_body (by decide)
  rw [httpParse_byte_next hbody hcr, endHeaders]
  split
  · rename_i hle
    rw [httpParse_byte_done hbody' (hlf.trans (if_pos hle))]
    rfl
  rename_i hle
  rw [httpParse_byte_next hbody' (hlf.trans (if_neg hle))]
  rfl

theorem httpParse_headerLine {h : Bytes × Bytes} (hbuf : c1.parser.buf = [])
    (hcr : 13 ∉ headerLine h) (tail : Bytes) :
    httpParse c (headerLine h ++ 13 :: 10 :: tail) = after ((headerLine h).length + 2)
      (httpParse ((c1.setBuf (headerLine h)).setStep .sepR0) tail) := by
  have hne : headerLine h ≠ [] := by simp [headerLine]
  generalize headerLine h = line at hcr hne
  cases line with
  | nil => exact absurd rfl hne
  | cons d l =>
    obtain ⟨hd, hl⟩ := not_or.mp (mt mem_cons.mpr hcr)
    have hbyte : c.byte d = ((c1.setBuf (c1.parser.buf ++ [d])).setStep .headersR0, none) := by
      rw [byte, hstep, hmanage]
      exact if_neg (Ne.symm hd)
    have hbody : c.parser.step ≠ .bodyAsis := by rw [hstep]; decide
    rw [cons_append, httpParse_byte_next hbody hbyte, ← after,
      httpParse_line (.inr rfl) hl, after_after]
    generalize hline : ((c1.setBuf (c1.parser.buf ++ [d])).setStep .headersR0).setBuf
      (((c1.setBuf (c1.parser.buf ++ [d])).setStep .headersR0).parser.buf ++ l) = c2
    have hc2 : c2 = (c1.setBuf (d :: l)).setStep .headersR0 := by
      rw [← hline, hbuf]
      rfl
    subst hc2
    have hcr' : ((c1.setBuf (d :: l)).setStep .headersR0).byte 13 =
        ((c1.setBuf (d :: l)).setStep .headersN0, none) := rfl
    have hlf : ((c1.setBuf (d :: l)).setStep .headersN0).byte 10 =
        ((c1.setBuf (d :: l)).setStep .sepR0, none) := rfl
    rw [httpParse_byte_next (setStep_ne_body (by decide)) hcr',
      httpParse_byte_next (setStep_ne_body (by decide)) hlf, ← after, ← after, after_after,
      after_after, length_cons]
    congr 1
    omega

end

theorem httpParse_headers {tail : Bytes} : ∀ {hs : List (Bytes × Bytes)} {c c1 : HttpCtx},
    c.parser.step = .sepR0 → c.manageHeader = (true, c1) → c1.parser.buf = [] →
    c1.parser.step = .sepR0 → (∀ h ∈ hs, ∀ b ∈ h.1, b ≠ 58 ∧ b ≠ 13 ∧ b ≠ 0) →
    (∀ h ∈ hs, ∀ b ∈ h.2, b ≠ 13 ∧ b ≠ 10 ∧ b ≠ 0) →
    httpParse c (hs.flatMap (fun h => headerLine h ++ [13, 10]) ++ 13 :: 10 :: tail) =
      after ((hs.flatMap fun h => headerLine h ++ [13, 10]).length + 2)
        ((hs.foldl addHeader c1).endHeaders tail)
  | [], c, c1, hstep, hmanage, _, _, _, _ => by
    rw [flatMap_nil, nil_append, httpParse_emptyLine hstep hmanage]
    rfl
  | h :: hs, c, c1, hstep, hmanage, hbuf, hstep1, hname, hvalue => by
    obtain ⟨hname, hnames⟩ := forall_mem_cons.mp hname
    obtain ⟨hvalue, hvalues⟩ := forall_mem_cons.mp hvalue
    have hcr : 13 ∉ headerLine h := by
      intro hmem
      simp only [headerLine, mem_append, mem_cons] at hmem
      rcases hmem with hmem | hmem | hmem | hmem
      · exact (hname 13 hmem).2.1 rfl
      · exact absurd hmem (by decide)
      · exact absurd hmem (by decide)
      · exact (hvalue 13 hmem).1 rfl
    have hnext : ((c1.setBuf (headerLine h)).setStep .sepR0).addHeader h = c1.addHeader h := by
      rw [addHeader, addHeader]
      simp only [setStep, setBuf, hstep1]
    have hmanage' := manageHeader_line (c := (c1.setBuf (headerLine h)).setStep .sepR0) hname hvalue
      rfl
    rw [hnext] at hmanage'
    rw [flatMap_cons, append_assoc, append_assoc, cons_append, cons_append,
      nil_append, httpParse_headerLine hstep hmanage hbuf hcr,
      httpParse_headers rfl hmanage' rfl hstep1 hnames hvalues, after_after, length_append, length_append]
    congr 1

theorem foldl_addHeader : ∀ {hs : List (Bytes × Bytes)} {c : HttpCtx}, c.parser.buf = [] →
    hs.foldl addHeader c =
      { parser := { c.parser with
          contentLength := hs.foldl (fun n h =>
            if strcaseeq h.1 (ascii "Content-Length") then strtoll h.2 else n)
              c.parser.contentLength }
        request := { c.request with
          treeHeaders := hs.foldl (fun t h => treeReplace t (h.1.map toLower) h.2)
            c.request.treeHeaders } }
  | [], _, _ => rfl
  | h :: hs, c, hbuf => by
    rw [foldl_cons, foldl_addHeader rfl]
    simp [addHeader, hbuf]

end

/-- command の行を読んだ後の文脈 -/
def HttpMessage.commandCtx : HttpCtx :=
  { parser := { httpParserReset with step := .sepR0 }
    request := { httpRequestCreate with
      cmd := some r.cmd
      reqUri := some r.uri
      version := some (ascii "HTTP/1.1") } }

theorem httpParse_commandLine (tail : Bytes) : httpParse .init (r.commandLine ++ 13 :: 10 :: tail) =
    after (r.commandLine.length + 2) (httpParse r.commandCtx tail) := by
  have hcr : 13 ∉ r.commandLine := by
    intro hmem
    simp only [commandLine, mem_append, mem_cons] at hmem
    rcases hmem with hmem | hmem | hmem | hmem | hmem
    · exact (r.cmd_ok 13 hmem).2.1 rfl
    · exact absurd hmem (by decide)
    · exact (r.uri_ok 13 hmem).1 rfl
    · exact absurd hmem (by decide)
    · exact absurd hmem (by decide)
  have hbyte : (init.setBuf (init.parser.buf ++ r.commandLine)).byte 13 =
      ((init.setBuf r.commandLine).setStep .firstN0, none) := rfl
  have hcommand : ((init.setBuf r.commandLine).setStep .firstN0).byte 10 =
      (r.commandCtx, none) := by
    rw [byte, manageCommand_line rfl]
    rfl
  have hbody : (init.setBuf (init.parser.buf ++ r.commandLine)).parser.step ≠
      .bodyAsis := by
    show HttpStep.firstR0 ≠ .bodyAsis
    decide
  rw [httpParse_line (.inl rfl) hcr, httpParse_byte_next hbody hbyte,
    httpParse_byte_next (setStep_ne_body (by decide)) hcommand, ← after, ← after, after_after,
    after_after]

theorem endHeaders_body : ∃ ctx, (r.headers.foldl addHeader r.commandCtx).endHeaders r.body =
    (ctx, r.body.length, some .success) ∧ ctx.request = r.request := by
  have hsized := r.sized
  rw [declaredLength] at hsized
  rw [foldl_addHeader rfl, endHeaders]
  generalize hlen : r.headers.foldl (fun n h =>
    if strcaseeq h.1 (ascii "Content-Length") then strtoll h.2 else n) (-1) = n at hsized
  split
  · rename_i hle
    have hnil : r.body = [] := by
      refine eq_nil_of_length_eq_zero ?_
      rw [hsized]
      exact Int.toNat_of_nonpos (hlen ▸ hle)
    refine ⟨_, by rw [hnil, length_nil], ?_⟩
    rw [HttpMessage.request, hnil]
    rfl
  rename_i hle
  have hpos : 0 < n := Int.not_le.mp (hlen ▸ hle)
  have hne : r.body ≠ [] := by
    rw [← length_pos_iff]
    omega
  have hmin : min r.body.length (n - 0).toNat = r.body.length := by omega
  have hall : ¬ (r.body.length : Int) < n - 0 := by omega
  rw [httpParse_body rfl hne]
  simp only [setStep, HttpMessage.commandCtx, httpParserReset, hlen, hmin, if_neg hall]
  refine ⟨_, rfl, ?_⟩
  rw [copyBody, take_length]
  rfl

/-- **request の byte 列を渡すと、ちょうど終わりで、その request ができる。** -/
theorem httpParse_encode : ∃ ctx, httpParse .init r.encode = (ctx, r.encode.length, some .success) ∧
    ctx.request = r.request := by
  obtain ⟨ctx, hend, hrequest⟩ := endHeaders_body r
  refine ⟨ctx, ?_, hrequest⟩
  rw [encode, httpParse_commandLine,
    httpParse_headers rfl rfl rfl rfl r.name_ok r.value_ok, after_after, hend, after]
  simp only [length_append, length_cons]
  congr 2
  omega

end Redcurrant.Server
