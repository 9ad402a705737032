import Redcurrant.Client.Download

/-!
# download した範囲

成功した download が求められた範囲をちょうど書く条件（`download_iff`）。
-/

namespace Redcurrant.Client

open Infra Sqliterepo List Option FileOp DlState SeekFile

/-! ## 条件 -/

/-- 複製がすべて失敗し、最後の複製が何か書いた -/
def lost : List Attempt → Bool
  | [] => false
  | .failed n _ :: rest => if rest.isEmpty then decide (0 < n) else lost rest
  | _ :: _ => false

/-- この回で、書いたものが失われない -/
def DlState.lossless (l : Layout) (s : DlState) (outcome : Nat → Attempt) : Bool :=
  if s.status.size ≤ s.status.contentDl then true
  else
    match jumpToTarget l s.status with
    | .error _ => true
    | .ok (_, _, ag) => !lost ((range ag.replicas).map outcome)

/-- **成功した download は範囲をちょうど書く。** -/
def DownloadRight (l : Layout) (r : DlRequest) (outcomes : List (Nat → Attempt)) : Prop :=
  ∀ s₀ s, r.start l = .ok s₀ → exec (DlState.step l) s₀ outcomes = some s → s.phase = .ok →
    ∀ content : Bytes, content.length = l.size →
      (output l content s.ops).data = (content.drop r.offset.toNat).take (r.length l).toNat

/-! ## chunk を探す -/

/-- 探した chunk について分かること -/
structure Target (l : Layout) (st st' : DlStatus) (i : Nat) (ag : Agregate) : Prop where
  offset : st'.offset = st.offset
  size : st'.size = st.size
  contentDl : st'.contentDl = st.contentDl
  found : l.agregates[i]? = some ag
  place : l.start i + st'.chunkDlOffset = st.offset + st.contentDl
  within : st'.chunkDlOffset + st'.chunkDlSize ≤ ag.size
  left : st'.contentDl + st'.chunkDlSize ≤ st.size
  pos : st.contentDl < st.size → 0 < st'.chunkDlSize

def SameRange (st st' : DlStatus) : Prop :=
  st'.offset = st.offset ∧ st'.size = st.size ∧ st'.contentDl = st.contentDl

theorem sameRange_countAttempt {st st' : DlStatus} (h : SameRange st st') (i : Nat) :
    SameRange st (st'.countAttempt i) := by
  unfold DlStatus.countAttempt
  split <;> exact h

variable {l : Layout} {ag : Agregate}

theorem start_succ {k : Nat} (h : l.agregates[k]? = some ag) :
    l.start (k + 1) = l.start k + ag.size := by
  simp [Layout.start, take_add_one, h]

theorem target_of_jumpFrom {st0 st' : DlStatus} {i : Nat} (hbound : st0.contentDl ≤ st0.size) :
    ∀ (rest : List Agregate) (k : Nat) (st : DlStatus), l.agregates.drop k = rest →
      SameRange st0 st → st.chunkStartOffset = l.start k →
      l.start k ≤ st0.offset + st0.contentDl →
      jumpFrom (st0.offset + st0.contentDl) (st0.size - st0.contentDl) st rest k =
        .ok (st', i, ag) →
      Target l st0 st' i ag
  | [], _, _, _, _, _, _, h => by cases h
  | a :: rest, k, st, hdrop, hsame, hstart, hle, h => by
    have hget : l.agregates[k]? = some a := by
      rw [← head?_drop, hdrop]
      rfl
    rw [jumpFrom] at h
    split at h
    · rename_i hlt
      obtain ⟨hoffset, hsize, hdl⟩ := sameRange_countAttempt hsame k
      simp only at h
      split at h
      · cases h
      cases h
      refine ⟨hoffset, hsize, hdl, hget, ?_, ?_, ?_, fun hpos => ?_⟩
      all_goals
        simp only [hstart, hdl] at hlt ⊢
        omega
    · rename_i hge
      have hnext := start_succ hget
      refine target_of_jumpFrom hbound rest (k + 1) _ ?_ ?_ ?_ ?_ h
      · rw [← drop_drop, hdrop]
        rfl
      · exact hsame
      · simp only [hnext, hstart]
      · omega

theorem target_of_jumpToTarget {st st' : DlStatus} {i : Nat} (hbound : st.contentDl ≤ st.size)
    (h : jumpToTarget l st = .ok (st', i, ag)) : Target l st st' i ag := by
  refine target_of_jumpFrom hbound l.agregates 0 _ rfl ?_ ?_ (Nat.zero_le _) h
  · exact ⟨rfl, rfl, rfl⟩
  · rfl

theorem chunk_slice {i off n : Nat} (content : Bytes) (hag : l.agregates[i]? = some ag)
    (hle : off + n ≤ ag.size) :
    ((l.chunk content i).drop off).take n = (content.drop (l.start i + off)).take n := by
  rw [Layout.chunk, hag, map_some, getD_some, drop_take, take_take,
    drop_drop, Nat.min_eq_left (by omega)]

/-! ## 複製を試す -/

/-- 失敗した複製が file にする操作 -/
def retries (saved : DlStatus) (i : Nat) (ns : List Nat) : List FileOp :=
  ns.flatMap fun n =>
    .write i saved.chunkDlOffset (min n saved.chunkDlSize) ::
      if 0 < min n saved.chunkDlSize then [.rewind saved.contentDl] else []

section

variable {saved : DlStatus} {i : Nat}

theorem tryReplicas_cons (saved : DlStatus) (i n : Nat) (code : Int) (rest : List Attempt)
    (t : Tries) :
    (∃ ops, tryReplicas saved i (.failed n code :: rest) t = .crashed ops) ∨
      ∃ t', t'.status = saved.advance (min n saved.chunkDlSize) ∧
        t'.ops = t.ops ++ retries saved i [n] ∧
        tryReplicas saved i (.failed n code :: rest) t = tryReplicas saved i rest t' := by
  have hback : (if saved.contentDl < (saved.advance (min n saved.chunkDlSize)).contentDl then
      [rewind saved.contentDl] else []) =
      if 0 < min n saved.chunkDlSize then [.rewind saved.contentDl] else [] := by
    simp [DlStatus.advance]
  have hops : t.ops ++ write i saved.chunkDlOffset (min n saved.chunkDlSize) ::
      (if saved.contentDl < (saved.advance (min n saved.chunkDlSize)).contentDl then
        [rewind saved.contentDl] else []) = t.ops ++ retries saved i [n] := by
    rw [hback, retries, flatMap_singleton]
  rw [tryReplicas]
  simp only [hops]
  generalize (if code ≠ 0 then code else t.localGerr) = e
  split
  · exact .inr ⟨_, rfl, rfl, rfl⟩
  split
  · split
    · exact .inl ⟨_, rfl⟩
    · exact .inr ⟨_, rfl, rfl, rfl⟩
  split
  · split
    · exact .inl ⟨_, rfl⟩
    · exact .inr ⟨_, rfl, rfl, rfl⟩
  · exact .inr ⟨_, rfl, rfl, rfl⟩

theorem retries_cons (n : Nat) (ns : List Nat) :
    retries saved i (n :: ns) = retries saved i [n] ++ retries saved i ns := by
  rw [retries, flatMap_cons, retries, flatMap_singleton, retries]

theorem tryReplicas_done {st : DlStatus} {ops : List FileOp} {g : Option Int} :
    ∀ {attempts : List Attempt} {t : Tries}, tryReplicas saved i attempts t = .done st ops g →
      st = saved.advance saved.chunkDlSize ∧ lost attempts = false ∧ ∃ ns, ops = t.ops ++
        (retries saved i ns ++ [.write i saved.chunkDlOffset saved.chunkDlSize])
  | [], _, h => by cases h
  | .success :: _, t, h => by
    cases h
    exact ⟨rfl, rfl, [], rfl⟩
  | .callerError _ :: _, _, h => by
    cases h
  | .failed n code :: rest, t, h => by
    rcases tryReplicas_cons saved i n code rest t with ⟨ops', heq⟩ | ⟨t', -, hops, heq⟩
    · rw [heq] at h
      cases h
    rw [heq] at h
    obtain ⟨hst, hlost, ns, hops'⟩ := tryReplicas_done h
    refine ⟨hst, ?_, n :: ns, ?_⟩
    · rw [lost]
      split
      · rename_i hempty
        rw [isEmpty_iff.mp hempty] at h
        cases h
      · exact hlost
    · rw [hops', hops, retries_cons n ns]
      simp

theorem tryReplicas_failed {st : DlStatus} {ops : List FileOp} {reload : Bool} {code : Int} :
    ∀ {attempts : List Attempt} {t : Tries},
      tryReplicas saved i attempts t = .failed st ops reload code →
      (∃ ns, ops = t.ops ++ retries saved i ns) ∧ (attempts = [] ∧ st = t.status ∨ attempts ≠ [] ∧
          ∃ n, st = saved.advance (min n saved.chunkDlSize) ∧ lost attempts = decide (0 < n))
  | [], t, h => by
    cases h
    exact ⟨⟨[], (append_nil _).symm⟩, .inl ⟨rfl, rfl⟩⟩
  | .success :: _, _, h => by
    cases h
  | .callerError _ :: _, _, h => by
    cases h
  | .failed n c :: rest, t, h => by
    rcases tryReplicas_cons saved i n c rest t with ⟨ops', heq⟩ | ⟨t', hstatus, hops, heq⟩
    · rw [heq] at h
      cases h
    rw [heq] at h
    obtain ⟨⟨ns, hops'⟩, hst⟩ := tryReplicas_failed h
    refine ⟨⟨n :: ns, ?_⟩, .inr ?_⟩
    · rw [hops', hops, retries_cons n ns, append_assoc]
    refine ⟨cons_ne_nil _ _, ?_⟩
    rcases hst with ⟨rfl, hst⟩ | ⟨hne, m, hst, hlost⟩
    · exact ⟨n, hst.trans hstatus, rfl⟩
    refine ⟨m, hst, ?_⟩
    rw [lost, if_neg (by simpa using hne)]
    exact hlost

end

/-! ## file -/

section

variable {l : Layout} {content : Bytes} {saved : DlStatus} {i : Nat}

theorem output_append (ops ops' : List FileOp) : output l content (ops ++ ops') =
    ops'.foldl (apply l content) (output l content ops) := by
  rw [output, foldl_append, output]

theorem foldl_retries {d : Bytes} (hd : d.length = saved.contentDl) : ∀ ns : List Nat,
    (retries saved i ns).foldl (apply l content) ⟨d, d.length⟩ = ⟨d, d.length⟩
  | [] => rfl
  | n :: ns => by
    have hone : (retries saved i [n]).foldl (apply l content) ⟨d, d.length⟩ = ⟨d, d.length⟩ := by
      rw [retries, flatMap_singleton, foldl_cons, apply, write_end]
      split
      · rw [foldl_cons, apply, ← hd, rewind_append, foldl_nil]
      have : min n saved.chunkDlSize = 0 := by omega
      rw [this, take_zero, append_nil, foldl_nil]
    rw [retries_cons, foldl_append, hone, foldl_retries hd ns]

/-- 書くものが 0 だけ -/
def FileOp.Zero (l : Layout) (content : Bytes) : FileOp → Prop
  | .write i off n => ∀ x ∈ ((l.chunk content i).drop off).take n, x = 0
  | .rewind _ => True

theorem foldl_zeros : ∀ {ops : List FileOp} {f : SeekFile}, (∀ op ∈ ops, op.Zero l content) →
    (∀ x ∈ f.data, x = 0) → ∀ x ∈ (ops.foldl (apply l content) f).data, x = 0
  | [], _, _, hf => hf
  | op :: ops, f, hops, hf => by
    obtain ⟨hop, hrest⟩ := forall_mem_cons.mp hops
    rw [foldl_cons]
    refine foldl_zeros hrest ?_
    cases op with
    | write i off n => exact write_zeros hf hop
    | rewind n => exact rewind_zeros hf n

def spike (n k : Nat) : Bytes := (replicate n 0).set k 1

theorem length_spike (n k : Nat) : (spike n k).length = n := by
  rw [spike, length_set, length_replicate]

theorem zero_of_mem_take_spike {n k o c : Nat} (hle : o + c ≤ k) {x : UInt8}
    (h : x ∈ ((spike n k).drop o).take c) : x = 0 := by
  rw [spike, drop_set, if_neg (by omega), take_set_of_le (by omega)] at h
  exact eq_of_mem_replicate (mem_of_mem_drop (mem_of_mem_take h))

theorem zero_of_mem_drop_spike {n k o c : Nat} (hlt : k < o) {x : UInt8}
    (h : x ∈ ((spike n k).drop o).take c) : x = 0 := by
  rw [spike, drop_set_of_lt hlt] at h
  exact eq_of_mem_replicate (mem_of_mem_drop (mem_of_mem_take h))

theorem one_mem_spike {n o c z : Nat} (hc : c < z) (hz : o + z ≤ n) :
    (1 : UInt8) ∈ ((spike n (o + c)).drop o).take z := by
  refine mem_of_getElem? (i := c) ?_
  rw [getElem?_take_of_lt hc, getElem?_drop, spike, getElem?_set_self]
  rw [length_replicate]
  omega

end

/-! ## 1 回の効果 -/

inductive RoundEffect (l : Layout) (s s' : DlState) (outcome : Nat → Attempt) : Prop
  | done (st : DlStatus) (i : Nat) (ag : Agregate) (ns : List Nat)
      (target : Target l s.status st i ag) (status : s'.status = st.advance st.chunkDlSize)
      (ops : s'.ops = s.ops ++ (retries st i ns ++ [.write i st.chunkDlOffset st.chunkDlSize]))
      (lossless : s.lossless l outcome = true)
  | failed (st : DlStatus) (i : Nat) (ag : Agregate) (ns : List Nat) (n : Nat)
      (target : Target l s.status st i ag) (lt : s.status.contentDl < s.status.size)
      (status : s'.status = st.advance (min n st.chunkDlSize))
      (ops : s'.ops = s.ops ++ retries st i ns) (lossless : s.lossless l outcome = !decide (0 < n))

theorem round_effect {s : DlState} {outcome : Nat → Attempt}
    (hbound : s.status.contentDl ≤ s.status.size) (h : (s.round l outcome).phase = .running) :
    RoundEffect l s (s.round l outcome) outcome := by
  have hlossless : ¬ s.status.size ≤ s.status.contentDl → ∀ st i ag,
      jumpToTarget l s.status = .ok (st, i, ag) →
      s.lossless l outcome = !lost ((range ag.replicas).map outcome) := by
    intro hlt st i ag hjump
    rw [lossless, if_neg hlt, hjump]
  generalize hs' : s.round l outcome = s' at h
  unfold DlState.round at hs'
  split at hs'
  · subst hs'
    cases h
  rename_i hlt
  split at hs'
  · split at hs' <;> subst hs' <;> cases h
  rename_i st i ag hjump
  have htarget := target_of_jumpToTarget hbound hjump
  have hl := hlossless hlt st i ag hjump
  split at hs'
  · rename_i st' ops gerr htry
    subst hs'
    obtain ⟨hst, hlost, ns, hops⟩ := tryReplicas_done htry
    rw [hlost] at hl
    exact .done st i ag ns htarget hst hops hl
  · subst hs'
    cases h
  · subst hs'
    cases h
  · rename_i st' ops reload code htry
    obtain ⟨⟨ns, hops⟩, hst⟩ := tryReplicas_failed htry
    have hne : (range ag.replicas).map outcome ≠ [] := by
      have := l.replicas_pos ag (mem_of_getElem? htarget.found)
      rw [← length_pos_iff, length_map, length_range]
      exact this
    rcases hst with ⟨hnil, -⟩ | ⟨-, n, hst, hlost⟩
    · exact absurd hnil hne
    rw [hlost] at hl
    split at hs'
    · subst hs'
      cases h
    split at hs'
    · subst hs'
      cases h
    · subst hs'
      exact .failed st i ag ns n htarget (by omega) hst hops hl

/-! ## 正しい file と失われた file -/

/-- file は範囲の初めの `content_dl` byte -/
structure Good (l : Layout) (o z : Nat) (s : DlState) : Prop where
  offset : s.status.offset = o
  size : s.status.size = z
  fits : o + z ≤ l.size
  le : s.status.contentDl ≤ z
  file : ∀ content : Bytes, content.length = l.size →
    output l content s.ops = ⟨(content.drop o).take s.status.contentDl, s.status.contentDl⟩

structure Bad (l : Layout) (o z : Nat) (s : DlState) : Prop where
  offset : s.status.offset = o
  size : s.status.size = z
  fits : o + z ≤ l.size
  le : s.status.contentDl ≤ z
  gap : ∃ c < s.status.contentDl, ∀ x ∈ (output l (spike l.size (o + c)) s.ops).data, x = 0

section

variable {l : Layout} {o z : Nat} {s s' : DlState} {outcome : Nat → Attempt}

theorem length_range {content : Bytes} {c : Nat} (hlen : content.length = l.size)
    (hfits : o + z ≤ l.size) (hle : c ≤ z) : ((content.drop o).take c).length = c := by
  rw [length_take, length_drop]
  omega

theorem Target.range {st : DlStatus} {i n : Nat} {ag : Agregate} (h : Target l s.status st i ag)
    (hstatus : s'.status = st.advance n) :
    s'.status.offset = s.status.offset ∧ s'.status.size = s.status.size ∧
      s'.status.contentDl = s.status.contentDl + n := by
  rw [hstatus]
  exact ⟨h.offset, h.size, congrArg (· + n) h.contentDl⟩

theorem Good.output_retries (h : Good l o z s) {st : DlStatus}
    (hdl : st.contentDl = s.status.contentDl) (i : Nat) (ns : List Nat) {content : Bytes}
    (hcontent : content.length = l.size) :
    output l content (s.ops ++ retries st i ns) =
      ⟨(content.drop o).take s.status.contentDl, s.status.contentDl⟩ := by
  have hlen := length_range hcontent h.fits h.le
  have hfile := h.file content hcontent
  rw [output_append, hfile]
  have hretries : (retries st i ns).foldl (apply l content) ⟨_, _⟩ = ⟨_, _⟩ :=
    foldl_retries (hlen.trans hdl.symm) ns
  rwa [hlen] at hretries

theorem Good.round (h : Good l o z s) (heffect : RoundEffect l s s' outcome)
    (hl : s.lossless l outcome = true) : Good l o z s' := by
  have hle := h.le
  cases heffect with
  | done st i ag ns target status ops _ =>
    obtain ⟨hoffset, hsize, hdl⟩ := target.range status
    have hleft := target.left
    rw [target.contentDl, h.size] at hleft
    refine ⟨hoffset.trans h.offset, hsize.trans h.size, h.fits, by omega,
      fun content hcontent => ?_⟩
    have hlen := length_range hcontent h.fits hle
    have hnext := length_range hcontent h.fits hleft
    have happend : (content.drop o).take s.status.contentDl ++
        ((l.chunk content i).drop st.chunkDlOffset).take st.chunkDlSize =
        (content.drop o).take (s.status.contentDl + st.chunkDlSize) := by
      rw [chunk_slice content target.found target.within, target.place, h.offset, ← drop_drop,
        ← take_add]
    have hwrite := write_end ((content.drop o).take s.status.contentDl)
      (((l.chunk content i).drop st.chunkDlOffset).take st.chunkDlSize)
    rw [happend, hlen, hnext] at hwrite
    rw [ops, ← append_assoc, output_append, h.output_retries target.contentDl i ns hcontent,
      foldl_cons, apply, hwrite, hdl, foldl_nil]
  | failed st i ag ns n target _ status ops lossless =>
    rw [hl] at lossless
    have hn : n = 0 := by simpa using lossless
    rw [hn, Nat.zero_min] at status
    obtain ⟨hoffset, hsize, hdl⟩ := target.range status
    refine ⟨hoffset.trans h.offset, hsize.trans h.size, h.fits, by omega,
      fun content hcontent => ?_⟩
    rw [ops, h.output_retries target.contentDl i ns hcontent, hdl, Nat.add_zero]

theorem Good.lose (h : Good l o z s) (heffect : RoundEffect l s s' outcome)
    (hl : s.lossless l outcome = false) : Bad l o z s' := by
  cases heffect with
  | done st i ag ns target status ops lossless =>
    rw [hl] at lossless
    cases lossless
  | failed st i ag ns n target hlt status ops lossless =>
    rw [hl] at lossless
    have hn : 0 < n := by simpa using lossless
    have hpos := target.pos hlt
    have hleft := target.left
    obtain ⟨hoffset, hsize, hdl⟩ := target.range status
    rw [target.contentDl, h.size] at hleft
    refine ⟨hoffset.trans h.offset, hsize.trans h.size, h.fits, by omega,
      s.status.contentDl, by omega, fun x hx => ?_⟩
    rw [ops, h.output_retries target.contentDl i ns (length_spike _ _)] at hx
    exact zero_of_mem_take_spike (Nat.le_refl _) hx

theorem Bad.round (h : Bad l o z s) (heffect : RoundEffect l s s' outcome) : Bad l o z s' := by
  obtain ⟨c, hc, hzero⟩ := h.gap
  -- どの書き込みも、失われた byte より先
  have hwrite : ∀ {st : DlStatus} {i : Nat} {ag : Agregate} (n : Nat), Target l s.status st i ag →
      (write i st.chunkDlOffset (min n st.chunkDlSize)).Zero l (spike l.size (o + c)) := by
    intro st i ag n target x hx
    have hwithin := target.within
    rw [chunk_slice _ target.found (by omega), target.place, h.offset] at hx
    exact zero_of_mem_drop_spike (by omega) hx
  have hretries : ∀ {st : DlStatus} {i : Nat} {ag : Agregate} (ns : List Nat),
      Target l s.status st i ag →
      ∀ op ∈ retries st i ns, op.Zero l (spike l.size (o + c)) := by
    intro st i ag ns target op hop
    obtain ⟨n, -, hop⟩ := mem_flatMap.mp hop
    rcases mem_cons.mp hop with rfl | hop
    · exact hwrite n target
    split at hop
    · rw [mem_singleton.mp hop]
      trivial
    · cases hop
  cases heffect with
  | done st i ag ns target status ops _ =>
    obtain ⟨hoffset, hsize, hdl⟩ := target.range status
    have hleft := target.left
    rw [target.contentDl, h.size] at hleft
    refine ⟨hoffset.trans h.offset, hsize.trans h.size, h.fits, by omega, c, by omega, ?_⟩
    rw [ops, output_append]
    refine foldl_zeros (fun op hop => ?_) hzero
    rcases mem_append.mp hop with hop | hop
    · exact hretries ns target op hop
    rw [mem_singleton.mp hop]
    have := hwrite st.chunkDlSize target
    rwa [Nat.min_self] at this
  | failed st i ag ns n target hlt status ops _ =>
    obtain ⟨hoffset, hsize, hdl⟩ := target.range status
    have hleft := target.left
    rw [target.contentDl, h.size] at hleft
    refine ⟨hoffset.trans h.offset, hsize.trans h.size, h.fits, by omega, c, by omega, ?_⟩
    rw [ops, output_append]
    exact foldl_zeros (hretries ns target) hzero

end

/-! ## run -/

section

variable {l : Layout} {o z : Nat} {s s' : DlState} {outcome : Nat → Attempt}

theorem step_eq_some (h : s.step l outcome = some s') :
    s.phase = .running ∧ s.round l outcome = s' := by
  unfold step at h
  split at h
  · rename_i hphase
    exact ⟨hphase, some.inj h⟩
  · cases h

theorem round_ok (hphase : s.phase = .running) (h : (s.round l outcome).phase = .ok) :
    s.status.size ≤ s.status.contentDl ∧ s.round l outcome = { s with phase := .ok } := by
  generalize hs' : s.round l outcome = s' at h
  unfold DlState.round at hs'
  split at hs'
  · rename_i hle
    exact ⟨hle, hs'.symm⟩
  split at hs'
  · split at hs' <;> subst hs' <;> cases h
  split at hs'
  · subst hs'
    rw [hphase] at h
    cases h
  · subst hs'
    cases h
  · subst hs'
    cases h
  · split at hs'
    · subst hs'
      cases h
    split at hs' <;> subst hs'
    · cases h
    · rw [hphase] at h
      cases h

/-- 続く状態と、成功した状態での性質 -/
def Alive (I : DlState → Prop) (s : DlState) : Prop :=
  (s.phase = .running → I s) ∧
    (s.phase = .ok → s.status.size ≤ s.status.contentDl ∧ ∃ a : DlState, a.phase = .running ∧ I a ∧
      s = { a with phase := .ok })

theorem Alive.of_running {I : DlState → Prop} (hphase : s.phase = .running) (h : I s) :
    Alive I s := by
  refine ⟨fun _ => h, fun hok => ?_⟩
  rw [hphase] at hok
  cases hok

theorem Alive.step {I : DlState → Prop} (h : Alive I s) (hstep : s.step l outcome = some s')
    (hround : I s → (s.round l outcome).phase = .running → I (s.round l outcome)) :
    Alive I s' := by
  obtain ⟨hphase, rfl⟩ := step_eq_some hstep
  refine ⟨hround (h.1 hphase), fun hok => ?_⟩
  obtain ⟨hle, heq⟩ := round_ok hphase hok
  rw [heq]
  exact ⟨hle, s, hphase, h.1 hphase, rfl⟩

theorem good_of_reach {s0 : DlState} (h0 : Alive (Good l o z) s0)
    (h : Reach (step l) (fun s f => s.lossless l f = true) s0 s) :
    Alive (Good l o z) s := by
  refine h.invariant h0 fun ha hok hstep => ha.step hstep fun hgood hphase => ?_
  exact hgood.round (round_effect (hgood.size ▸ hgood.le) hphase) hok

theorem bad_of_reach {s0 : DlState} (h0 : Alive (Bad l o z) s0)
    (h : Reachable (step l) s0 s) : Alive (Bad l o z) s := by
  refine h.invariant h0 fun ha _ hstep => ha.step hstep fun hbad hphase => ?_
  exact hbad.round (round_effect (hbad.size ▸ hbad.le) hphase)

theorem eq_of_reachable_ok (hphase : s.phase ≠ .running) (h : Reachable (step l) s s') :
    s' = s := by
  refine h.invariant (I := fun t => t = s) rfl ?_
  rintro a b f rfl - hstep
  exact absurd (step_eq_some hstep).1 hphase

theorem Good.output_eq (h : Alive (Good l o z) s) (hphase : s.phase = .ok) {content : Bytes}
    (hcontent : content.length = l.size) :
    (output l content s.ops).data = (content.drop o).take z := by
  obtain ⟨hle, a, -, hgood, rfl⟩ := h.2 hphase
  have hdl : a.status.contentDl = z := Nat.le_antisymm hgood.le (hgood.size ▸ hle)
  have := hgood.file content hcontent
  rw [hdl] at this
  exact congrArg data this

theorem Bad.output_ne (h : Alive (Bad l o z) s) (hphase : s.phase = .ok) :
    ∃ content : Bytes, content.length = l.size ∧
      (output l content s.ops).data ≠ (content.drop o).take z := by
  obtain ⟨hle, a, -, hbad, rfl⟩ := h.2 hphase
  obtain ⟨c, hc, hzero⟩ := hbad.gap
  refine ⟨spike l.size (o + c), length_spike _ _, fun heq => ?_⟩
  have hmem := one_mem_spike (Nat.lt_of_lt_of_le hc hbad.le) hbad.fits
  rw [← heq] at hmem
  exact absurd (hzero _ hmem) (by decide)

end

theorem good_start {r : DlRequest} {s : DlState} (h : r.start l = .ok s) :
    s.phase = .running ∧ Good l r.offset.toNat (r.length l).toNat s := by
  unfold DlRequest.start at h
  split at h
  · cases h
  rename_i hoffset
  split at h
  · cases h
  rename_i hsize
  split at h
  · cases h
  rename_i hfits
  cases h
  refine ⟨rfl, rfl, rfl, by omega, Nat.zero_le _, fun content _ => ?_⟩
  rfl

/-! ## 主定理 -/

/-- **成功した download がどの content でも範囲をちょうど書くのは、どの回でも、複製がすべて失敗したなら最後の
複製が 1 byte も書いていないときに限る。** -/
theorem download_iff (l : Layout) (r : DlRequest) (outcomes : List (Nat → Attempt)) :
    DownloadRight l r outcomes ↔
      ∀ s₀ s, r.start l = .ok s₀ → exec (DlState.step l) s₀ outcomes = some s → s.phase = .ok →
        execOk (DlState.step l) (fun s f => s.lossless l f = true) s₀ outcomes = true := by
  constructor
  · intro h s₀ s hstart hexec hphase
    obtain ⟨hrunning, hgood⟩ := good_start hstart
    by_contra hlossy
    obtain ⟨a, b, f, hreach, hlost, hstep, hrest⟩ :=
      first_of_exec outcomes (Bool.eq_false_iff.mpr hlossy) hexec
    have hlost := Bool.eq_false_iff.mpr hlost
    have halive := Alive.of_running hrunning hgood
    obtain ⟨haphase, rfl⟩ := step_eq_some hstep
    have hagood := (good_of_reach halive hreach).1 haphase
    by_cases hb : (a.round l f).phase = .running
    · -- 失われた後も続いて、成功した
      have hbad := hagood.lose (round_effect (hagood.size ▸ hagood.le) hb) hlost
      have hend := bad_of_reach (.of_running hb hbad) hrest
      obtain ⟨content, hcontent, hne⟩ := Bad.output_ne hend hphase
      exact hne (h s₀ s hstart hexec hphase content hcontent)
    · -- 成功を確かめるだけの回では、何も失われない
      rw [eq_of_reachable_ok hb hrest] at hphase
      rw [lossless, if_pos (round_ok haphase hphase).1] at hlost
      cases hlost
  · intro h s₀ s hstart hexec hphase content hcontent
    obtain ⟨hrunning, hgood⟩ := good_start hstart
    have halive := Alive.of_running hrunning hgood
    have hreach := reach_of_exec outcomes (h s₀ s hstart hexec hphase) hexec
    exact Good.output_eq (good_of_reach halive hreach) hphase hcontent

def singleChunk : Layout := ⟨[⟨2, 1⟩], by decide⟩

/-- **2 byte 届いた後の時間切れの次に成功すると、空の file ができる。** -/
theorem timeout_after_all_bytes : ∃ s₀ s, (⟨0, 2⟩ : DlRequest).start singleChunk = .ok s₀ ∧
    exec (DlState.step singleChunk) s₀ [fun _ => .failed 2 1, fun _ => .success] = some s ∧
    s.phase = .ok ∧ (output singleChunk [7, 8] s.ops).data = [] ∧
    ¬ DownloadRight singleChunk ⟨0, 2⟩ [fun _ => .failed 2 1, fun _ => .success] := by
  refine ⟨_, _, rfl, rfl, rfl, rfl, fun h => ?_⟩
  have := h _ _ rfl rfl rfl [7, 8] rfl
  revert this
  decide

end Redcurrant.Client
