import Redcurrant.Infra.Run
import Redcurrant.Meta1.PolicyUpdate

/-!
# prefix の行の書き直し

`_update_m1_policy_by_prefix`。行を順に書き直し、ときどき transaction を閉じながら、書き直した行と失敗した行を数える。
失敗した COMMIT は transaction を開いたままにし、次の BEGIN の結果は調べられないので、失敗と数えた行が次の COMMIT で
書かれることがある。
-/

namespace Redcurrant.Meta1

open Infra Metautils Sqliterepo List Option

/-- 1 行の間の乱数と、transaction の開始、保存、COMMIT の結果 -/
structure RowEvents where
  draws : Nat → Draw
  errno : Nat → Bool
  (started saved : Option GError)
  ended : CommitResult

/-- loop の状態。`committed` は COMMIT された行、`pending` は開いている transaction の行で、`checkonly` なら書いたとした行。 -/
structure PolicyRun where
  m1 : Meta1Backend
  (committed pending : List (ServiceRow × ServiceUrl))
  (err localerr : Option GError)
  checked : Nat
  updated : List (ServiceRow × ServiceUrl)
  failed : List ServiceRow
  current : List (ServiceRow × ServiceUrl)
  repctx : Bool

namespace PolicyRun

/-- `current` の行を失敗と数える -/
def fail (s : PolicyRun) (pending : List (ServiceRow × ServiceUrl)) (e : GError) : PolicyRun :=
  { s with
    pending := pending
    err := some e
    failed := s.failed ++ s.current.map (·.1)
    current := []
    repctx := false }

/-- `_commit_and_update_count`。error があれば ROLLBACK してそれを返す。 -/
def commitAndUpdateCount (s : PolicyRun) (ended : CommitResult) : PolicyRun :=
  match s.err, ended with
  | some e, _ => s.fail [] e
  | none, .done =>
    { s with
      committed := s.committed ++ s.pending
      pending := []
      updated := s.updated ++ s.current
      current := []
      repctx := false }
  | none, .refused e => s.fail [] e
  | none, .failed e => s.fail s.pending e

/-- 書き直した行を数え、`checkonly` でなければ保存する -/
def save (s : PolicyRun) (checkonly : Bool) (r : ServiceRow) (u : ServiceUrl)
    (saved : Option GError) : PolicyRun :=
  let s := { s with current := s.current ++ [(r, u)] }
  match if checkonly then s.err else saved with
  | none => { s with err := none, pending := s.pending ++ [(r, u)] }
  | some e => { s with err := some e }

/-- 行の終わり。100 行ごと、10 行の書き直しごと、error のときに閉じる。 -/
def closes (s : PolicyRun) : Bool :=
  s.checked % 100 = 0 || s.current.length % 10 = 0 || s.err.isSome

def endRow (s : PolicyRun) (ended : CommitResult) : PolicyRun :=
  if s.closes then s.commitAndUpdateCount ended else s

variable (ct : CompoundType) (replicas reqdist : Nat) (exclude : Option Excluded) (checkonly : Bool)

/-- 1 行の処理のうち、行の終わりの前まで。2 つ目の値は行の終わりに達したこと。 -/
def row (s : PolicyRun) (p : ServiceRow × RowEvents) : Option (PolicyRun × Bool) :=
  let s := { s with checked := s.checked + 1, localerr := none }
  match if s.repctx then none else p.2.started with
  | some e => some ({ s with localerr := some e, failed := s.failed ++ [p.1] }, false)
  | none =>
    (updateM1Policy p.2.draws p.2.errno s.m1 p.1.cid p.1.read ct replicas reqdist exclude).map
      fun r =>
        let s := { s with m1 := r.2, repctx := true }
        match r.1 with
        | .error e => ({ s with localerr := some e, failed := s.failed ++ [p.1] }, false)
        | .ok none => (s, true)
        | .ok (some u) => (s.save checkonly p.1 u p.2.saved, true)

def step (s : PolicyRun) (p : ServiceRow × RowEvents) : Option PolicyRun :=
  (row ct replicas reqdist exclude checkonly s p).map fun r =>
    if r.2 then r.1.endRow p.2.ended else r.1

def start (m1 : Meta1Backend) : PolicyRun := ⟨m1, [], [], none, none, 0, [], [], [], false⟩

/-- `_update_m1_policy_by_prefix` が行を得た後 -/
def updateM1PolicyByPrefix (m1 : Meta1Backend) (items : List (ServiceRow × RowEvents))
    (ended : CommitResult) : Option PolicyRun :=
  (exec (step ct replicas reqdist exclude checkonly) (start m1) items).map fun s =>
    if s.repctx then s.commitAndUpdateCount ended else s

/-- 返される文字列と error。loop の error か、最後の行の error。 -/
def result (s : PolicyRun) : Option String × Option GError :=
  (if s.err.isSome then none
    else some (toString s.checked ++ "|" ++ toString s.updated.length ++ "|" ++
      toString s.failed.length),
    s.err.or s.localerr)

/-! ## COMMIT される行 -/

/-- COMMIT できるなら、transaction にあるのは今数えている行だけ -/
def OwnCommit (s : PolicyRun) (ended : CommitResult) : Prop :=
  s.err = none → ended = .done → s.pending = s.current

/-- 行 `p` の終わりの COMMIT が、前に失敗と数えた行を書かない -/
def OwnRow (s : PolicyRun) (p : ServiceRow × RowEvents) : Prop :=
  ∀ r, row ct replicas reqdist exclude checkonly s p = some r → r.2 = true → r.1.closes = true →
    r.1.OwnCommit p.2.ended

/-- どの COMMIT も、前に失敗と数えた行を書かない -/
def OwnCommits (m1 : Meta1Backend) (items : List (ServiceRow × RowEvents)) (ended : CommitResult) :
    Prop :=
  EachStep (step ct replicas reqdist exclude checkonly) (OwnRow ct replicas reqdist exclude checkonly)
    (start m1) items ∧
  ∀ s, exec (step ct replicas reqdist exclude checkonly) (start m1) items = some s →
    s.repctx = true → s.OwnCommit ended

/-- 行は高々 1 度数えられ、updated と数えた行は COMMIT されている -/
structure Tallied (rows : List ServiceRow) (s : PolicyRun) : Prop where
  checked : s.checked = rows.length
  once : ∀ r, (s.updated.map (·.1)).count r + s.failed.count r + (s.current.map (·.1)).count r ≤
    rows.count r
  lead : s.updated = s.committed ∨ s.updated.length < s.committed.length

/-- 今数えている行は transaction の終わりにある -/
def Consistent (rows : List ServiceRow) (s : PolicyRun) : Prop :=
  Tallied rows s ∧ s.current <:+ s.pending

section

variable {ct replicas reqdist exclude checkonly} {rows : List ServiceRow} {s s' : PolicyRun}
  {ended : CommitResult}

section

variable (h : Tallied rows s) (hcurrent : s.err = none → s.current <:+ s.pending)
include h

theorem Tallied.fail (pending : List (ServiceRow × ServiceUrl)) (e : GError) :
    Consistent rows (s.fail pending e) := by
  refine ⟨⟨h.checked, fun r => ?_, h.lead⟩, nil_suffix⟩
  have := h.once r
  simp only [PolicyRun.fail, count_append, map_nil, count_nil]
  omega

include hcurrent

/-- **transaction の終わり。** COMMIT された行と updated の行が同じままなのは、今数えている行だけを COMMIT するとき。 -/
theorem Tallied.commit : Consistent rows (s.commitAndUpdateCount ended) ∧
    ((s.commitAndUpdateCount ended).updated = (s.commitAndUpdateCount ended).committed ↔
      s.updated = s.committed ∧ s.OwnCommit ended) := by
  have hno : ∀ {s : PolicyRun}, ¬ (s.err = none ∧ ended = .done) → s.OwnCommit ended :=
    fun h he hd => absurd ⟨he, hd⟩ h
  unfold commitAndUpdateCount
  split
  · next e he => exact ⟨h.fail _ _, (and_iff_left (hno (by simp [he]))).symm⟩
  · next he =>
    obtain ⟨old, hold⟩ := hcurrent he
    have hlength := congrArg length hold
    rw [length_append] at hlength
    refine ⟨⟨⟨h.checked, fun r => ?_, ?_⟩, nil_suffix⟩, ?_⟩
    · have := h.once r
      simp only [map_append, count_append, map_nil, count_nil]
      omega
    · rcases h.lead with heq | hlt
      · cases old with
        | nil => exact .inl (by simp only [heq, ← hold, nil_append])
        | cons x old =>
          refine .inr ?_
          have := congrArg length heq
          simp only [length_append, length_cons] at hlength ⊢
          omega
      · refine .inr ?_
        simp only [length_append]
        omega
    · show s.updated ++ s.current = s.committed ++ s.pending ↔ _
      constructor
      · intro hall
        have htotal := congrArg length hall
        simp only [length_append] at htotal
        have heq : s.updated = s.committed := h.lead.resolve_right (by omega)
        exact ⟨heq, fun _ _ => (append_cancel_left (heq ▸ hall)).symm⟩
      · rintro ⟨heq, hown⟩
        rw [heq, hown he rfl]
  · next e he => exact ⟨h.fail _ _, (and_iff_left (hno (by simp))).symm⟩
  · next e he => exact ⟨h.fail _ _, (and_iff_left (hno (by simp))).symm⟩

theorem Tallied.endRow : Consistent rows (s.endRow ended) ∧
    ((s.endRow ended).updated = (s.endRow ended).committed ↔
      s.updated = s.committed ∧ (s.closes = true → s.OwnCommit ended)) := by
  unfold PolicyRun.endRow
  split
  · next hcloses => simpa [hcloses] using h.commit hcurrent
  · next hcloses =>
    refine ⟨⟨h, hcurrent ?_⟩, (and_iff_left fun hc => absurd hc hcloses).symm⟩
    simp only [closes, Bool.or_eq_true, not_or, Bool.not_eq_true] at hcloses
    simpa using hcloses.2

end

/-- 行の終わりの前まで -/
theorem tallied_row {p : ServiceRow × RowEvents} {r : PolicyRun × Bool} (h : Consistent rows s)
    (hr : row ct replicas reqdist exclude checkonly s p = some r) :
    Tallied (rows ++ [p.1]) r.1 ∧ (r.2 = false ∨ r.1.err = none → r.1.current <:+ r.1.pending) ∧
      r.1.updated = s.updated ∧ r.1.committed = s.committed := by
  obtain ⟨⟨hchecked, honce, hlead⟩, hcurrent⟩ := h
  have hlength : s.checked + 1 = (rows ++ [p.1]).length := by simp [hchecked]
  have hfailed : ∀ r, (s.updated.map (·.1)).count r + (s.failed ++ [p.1]).count r +
      (s.current.map (·.1)).count r ≤ (rows ++ [p.1]).count r := by
    intro r
    have := honce r
    simp only [count_append]
    omega
  unfold row at hr
  dsimp only at hr
  split at hr
  · cases hr
    exact ⟨⟨hlength, hfailed, hlead⟩, fun _ => hcurrent, rfl, rfl⟩
  obtain ⟨⟨res, m1⟩, -, rfl⟩ := map_eq_some_iff.mp hr
  match res with
  | .error e => exact ⟨⟨hlength, hfailed, hlead⟩, fun _ => hcurrent, rfl, rfl⟩
  | .ok none =>
    refine ⟨⟨hlength, fun r => ?_, hlead⟩, fun _ => hcurrent, rfl, rfl⟩
    exact (honce r).trans ((sublist_append_left ..).count_le r)
  | .ok (some u) =>
    have hopened : ∀ r, (s.updated.map (·.1)).count r + s.failed.count r +
        ((s.current ++ [(p.1, u)]).map (·.1)).count r ≤ (rows ++ [p.1]).count r := by
      intro r
      have := honce r
      simp only [map_append, map_cons, map_nil, count_append]
      omega
    dsimp only [save]
    split
    · refine ⟨⟨hlength, hopened, hlead⟩, fun _ => ?_, rfl, rfl⟩
      obtain ⟨old, hold⟩ := hcurrent
      exact ⟨old, by rw [← append_assoc, hold]⟩
    · refine ⟨⟨hlength, hopened, hlead⟩, fun he => ?_, rfl, rfl⟩
      rcases he with he | he <;> cases he

theorem consistent_step {p : ServiceRow × RowEvents} (h : Consistent rows s)
    (hs : step ct replicas reqdist exclude checkonly s p = some s') :
    Consistent (rows ++ [p.1]) s' ∧ (s'.updated = s'.committed ↔
      s.updated = s.committed ∧ OwnRow ct replicas reqdist exclude checkonly s p) := by
  obtain ⟨r, hr, rfl⟩ := map_eq_some_iff.mp hs
  obtain ⟨htallied, hcurrent, hupdated, hcommitted⟩ := tallied_row h hr
  have hown : OwnRow ct replicas reqdist exclude checkonly s p ↔
      (r.2 = true → r.1.closes = true → r.1.OwnCommit p.2.ended) :=
    ⟨fun h => h r hr, fun h r' hr' => some.inj (hr.symm.trans hr') ▸ h⟩
  rw [hown, ← hupdated, ← hcommitted]
  cases hend : r.2 with
  | false =>
    refine ⟨⟨htallied, hcurrent (.inl hend)⟩, ?_⟩
    simp
  | true => simpa using htallied.endRow fun he => hcurrent (.inr he)

/-- **行の列。** 行の列についての帰納法による。 -/
theorem consistent_exec : ∀ (items : List (ServiceRow × RowEvents)) {rows : List ServiceRow}
    {s : PolicyRun}, Consistent rows s →
    exec (step ct replicas reqdist exclude checkonly) s items = some s' →
    Consistent (rows ++ items.map (·.1)) s' ∧ (s'.updated = s'.committed ↔
      s.updated = s.committed ∧ EachStep (step ct replicas reqdist exclude checkonly)
        (OwnRow ct replicas reqdist exclude checkonly) s items)
  | [], rows, s, h, hs => by
    cases hs
    simpa [EachStep] using h
  | p :: items, rows, s, h, hs => by
    obtain ⟨s₁, h₁, hs⟩ := bind_eq_some_iff.mp hs
    obtain ⟨hrow, hiff⟩ := consistent_step h h₁
    obtain ⟨hend, hrest⟩ := consistent_exec items hrow hs
    refine ⟨by simpa using hend, ?_⟩
    rw [hrest, hiff, and_assoc, EachStep]
    refine and_congr_right fun _ => ⟨fun h s₂ h₂ => ?_, fun h => h s₁ h₁⟩
    exact some.inj (h₁.symm.trans h₂) ▸ h

/-- **どの行も高々 1 度数えられ、updated の行がちょうど COMMIT された行（`checkonly` なら、書けば COMMIT される行）なのは、
どの COMMIT も前に失敗と数えた行を書かないとき。** -/
theorem policy_counters_iff (ct : CompoundType) (replicas reqdist : Nat) (exclude : Option Excluded)
    (checkonly : Bool) (m1 : Meta1Backend) (items : List (ServiceRow × RowEvents))
    (ended : CommitResult) (s : PolicyRun)
    (hrun : updateM1PolicyByPrefix ct replicas reqdist exclude checkonly m1 items ended = some s) :
    (∀ text, s.result.1 = some text → text = toString items.length ++ "|" ++
        toString s.updated.length ++ "|" ++ toString s.failed.length) ∧
      (∀ r, (s.updated.map (·.1)).count r + s.failed.count r ≤ (items.map (·.1)).count r) ∧
      s.updated.length + s.failed.length ≤ items.length ∧
      (s.updated = s.committed ↔
        OwnCommits ct replicas reqdist exclude checkonly m1 items ended) := by
  obtain ⟨s₁, hexec, rfl⟩ := map_eq_some_iff.mp hrun
  have hinit : Consistent [] (start m1) := ⟨⟨rfl, fun _ => le_rfl, .inl rfl⟩, nil_suffix⟩
  obtain ⟨h₁, hiff⟩ := consistent_exec items hinit hexec
  rw [nil_append] at h₁
  have hown : OwnCommits ct replicas reqdist exclude checkonly m1 items ended ↔
      s₁.updated = s₁.committed ∧ (s₁.repctx = true → s₁.OwnCommit ended) := by
    rw [hiff, OwnCommits]
    refine and_congr (and_iff_right rfl).symm ?_
    exact ⟨fun h => h s₁ hexec, fun h s hs => some.inj (hexec.symm.trans hs) ▸ h⟩
  rw [hown]
  generalize hs : (if s₁.repctx then s₁.commitAndUpdateCount ended else s₁) = s
  obtain ⟨h, hfinal⟩ : Tallied (items.map (·.1)) s ∧ (s.updated = s.committed ↔
      s₁.updated = s₁.committed ∧ (s₁.repctx = true → s₁.OwnCommit ended)) := by
    rw [← hs]
    split
    · next hctx =>
      obtain ⟨hcommit, hcommitted⟩ := h₁.1.commit fun _ => h₁.2
      exact ⟨hcommit.1, by simpa [hctx] using hcommitted⟩
    · next hctx => exact ⟨h₁.1, by simp [hctx]⟩
  have honce : ∀ r, (s.updated.map (·.1)).count r + s.failed.count r ≤ (items.map (·.1)).count r :=
    fun r => (Nat.le_add_right _ _).trans (h.once r)
  refine ⟨fun text htext => ?_, honce, ?_, hfinal⟩
  · simp only [result] at htext
    split at htext
    · cases htext
    · rw [← some.inj htext, h.checked, length_map]
  have hsub : (s.updated.map (·.1) ++ s.failed).Subperm (items.map (·.1)) :=
    subperm_ext_iff.mpr fun r _ => by rw [count_append]; exact honce r
  simpa using hsub.length_le

end

/-- 足りない 11 個の行。10 行目の終わりの COMMIT は `ended` になる。 -/
def roomItems (ended : CommitResult) : List (ServiceRow × RowEvents) :=
  (range 11).map fun i => ({ roomRow with cid := [UInt8.ofNat i] },
    ⟨fun _ => ⟨0, 0, 0, 0⟩, fun _ => false, none, none, if i = 9 then ended else .done⟩)

def roomRun (ended : CommitResult) : Option PolicyRun :=
  updateM1PolicyByPrefix meta2Type 2 1 none false
    ⟨[], [], [(ascii "meta2", roomPool.toLb, .rr 0 0)]⟩ (roomItems ended) .done

/-- COMMIT が失敗しなければ、11 行とも COMMIT されて updated と数えられる -/
theorem policy_counters_room : ∃ s, roomRun .done = some s ∧ s.result.1 = some "11|11|0" ∧
    s.committed.length = 11 ∧ OwnCommits meta2Type 2 1 none false
      ⟨[], [], [(ascii "meta2", roomPool.toLb, .rr 0 0)]⟩ (roomItems .done) .done := by
  obtain ⟨s, hs, hresult, heq, hlength⟩ : ∃ s ∈ roomRun .done, s.result.1 = some "11|11|0" ∧
      s.updated = s.committed ∧ s.committed.length = 11 := by
    decide +kernel
  exact ⟨s, hs, hresult, hlength, (policy_counters_iff _ _ _ _ _ _ _ _ s hs).2.2.2.mp heq⟩

/-- **反例。** 10 行の COMMIT が失敗し、その 10 行が次の COMMIT で書かれる。 -/
theorem failed_rows_committed : ∃ s, roomRun (.failed ⟨5, "COMMIT failed: database is locked"⟩) =
    some s ∧ s.result.1 = some "11|1|10" ∧ s.committed.length = 11 := by
  obtain ⟨s, hs, h⟩ : ∃ s ∈ roomRun (.failed ⟨5, "COMMIT failed: database is locked"⟩),
      s.result.1 = some "11|1|10" ∧ s.committed.length = 11 := by
    decide +kernel
  exact ⟨s, hs, h⟩

end PolicyRun

end Redcurrant.Meta1
