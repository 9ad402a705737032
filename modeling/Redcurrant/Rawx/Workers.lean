import Redcurrant.Infra.Run
import Redcurrant.Infra.Cstring

/-!
# chunk の圧縮と展開を行う worker

`compress_chunk` と `uncompress_chunk2` を system call ごとの step に分ける。`.pending` の file に書いて `rename` する。
-/

namespace Redcurrant.Rawx

open Infra Option

/-! ## file system -/

/-- 拡張属性。`info` は content と chunk、`options` は圧縮の設定。 -/
structure FileAttrs where
  (info options : List (Bytes × Bytes))
  compressedSize : Option Nat
  deriving DecidableEq

/-- file の中身。`stamp` は所有者と時刻。 -/
structure Inode where
  data : Bytes
  attrs : FileAttrs
  stamp : Nat
  deriving DecidableEq

def Inode.empty : Inode := ⟨[], ⟨[], [], none⟩, 0⟩

/-- chunk の名と `.pending` の名が指す inode -/
structure Fs where
  (chunk pending : Option Nat)
  inode : Nat → Inode
  fresh : Nat

variable (fs : Fs)

/-- `open(tmp_path, O_WRONLY|O_CREAT|O_EXCL)` が新しく作る -/
def Fs.create : Fs :=
  { fs with
    pending := some fs.fresh
    inode := Function.update fs.inode fs.fresh .empty
    fresh := fs.fresh + 1 }

def Fs.modify (i : Nat) (f : Inode → Inode) : Fs :=
  { fs with inode := Function.update fs.inode i (f (fs.inode i)) }

/-- `.pending` を名で書き換える。無ければ失敗する。 -/
def Fs.modifyPending (f : Inode → Inode) : Option Fs := fs.pending.map fun i => fs.modify i f

/-- `fopen(tmp_path, "w")`。無ければ作られ、あれば空になる。 -/
def Fs.openPending : Nat × Fs :=
  match fs.pending with
  | some i => (i, fs.modify i fun f => { f with data := [] })
  | none => (fs.fresh, fs.create)

/-- `rename(tmp_path, path)` -/
def Fs.rename : Option Fs := fs.pending.map fun i => { fs with chunk := some i, pending := none }

/-- `remove(tmp_path)` -/
def Fs.remove : Fs := { fs with pending := none }

/-! ## 圧縮の方式 -/

inductive Algo
  | lzo
  | zlib
  deriving DecidableEq

/-- `init_compression_ctx`。名が NULL なら LZO になる。 -/
def initCompressionCtx : Option Bytes → Option Algo
  | none => some .lzo
  | some name =>
    if strcaseeq name (ascii "LZO") then some .lzo
    else if strcaseeq name (ascii "ZLIB") then some .zlib
    else none

/-- 圧縮した file を作る関数、開けるか、展開して検査した結果と書いたもの -/
structure Codec where
  compress : Algo → Nat → Bytes → Bytes
  chunkInit : Algo → Inode → Bool
  uncompress : Algo → Inode → Bool × Bytes

/-! ## worker -/

/-- `compress_chunk` と `uncompress_chunk2` の引数 -/
inductive Job
  | compress (algo : Bytes) (blocksize : Nat) (preserve : Bool)
  | uncompress (preserve keepPending : Bool)

/-- 失敗したときに `.pending` を残すか -/
def Job.keepsPending : Job → Bool
  | .compress .. => false
  | .uncompress _ keepPending => keepPending

/-- 次にする事。`refused` は `.pending` があること。 -/
inductive Pc
  | start
  | stat
  | create
  | copyAttr
  | compressAttr
  | openFiles
  | write
  | sizeAttr
  | finish
  | rename
  | cleanup (refused : Bool)
  | returned (refused status : Bool)
  deriving DecidableEq

/-- worker の変数。`src` と `dst` は開いた inode、`stamp` は始めの `stat`。 -/
structure Worker where
  pc : Pc
  algo : Algo
  (src dst stamp : Nat)

def Worker.init : Worker := ⟨.start, .lzo, 0, 0, 0⟩

/-- 外から決まる成否。`fail n` は `n` byte での失敗も表す。 -/
inductive Outcome
  | ok
  | fail (written : Nat)
  deriving DecidableEq

variable (w : Worker)

def statPending (fs : Fs) : Outcome → Worker × Fs
  | .ok => ({ w with pc := if fs.pending.isSome then .cleanup true else .create }, fs)
  | .fail _ => ({ w with pc := .create }, fs)

def createPending (fs : Fs) (out : Outcome) : Worker × Fs :=
  if fs.pending.isSome then ({ w with pc := .cleanup true }, fs)
  else
    match out with
    | .ok => ({ w with pc := .copyAttr }, fs.create)
    | .fail _ => ({ w with pc := .cleanup false }, fs)

/-- `.pending` の属性を変える。失敗すれば出口へ行く。 -/
def attrPending (fs : Fs) (next : Pc) (f : Inode → Inode) : Outcome → Worker × Fs
  | .ok =>
    match fs.modifyPending f with
    | some fs => ({ w with pc := next }, fs)
    | none => ({ w with pc := .cleanup false }, fs)
  | .fail _ => ({ w with pc := .cleanup false }, fs)

def copyFattr (fs : Fs) (next : Pc) (out : Outcome) : Worker × Fs :=
  match fs.chunk with
  | none => ({ w with pc := .cleanup false }, fs)
  | some i =>
    attrPending w fs next
      (fun f => { f with attrs := { f.attrs with info := (fs.inode i).attrs.info } }) out

/-- `rename`。失敗しても `.pending` は残る。 -/
def renamePending (fs : Fs) : Outcome → Worker × Fs
  | .ok =>
    match fs.rename with
    | some fs => ({ w with pc := .returned false true }, fs)
    | none => ({ w with pc := .returned false false }, fs)
  | .fail _ => ({ w with pc := .returned false false }, fs)

def removePending (fs : Fs) (keepPending refused : Bool) : Outcome → Worker × Fs
  | .ok => ({ w with pc := .returned refused false }, if keepPending then fs else fs.remove)
  | .fail _ => ({ w with pc := .returned refused false }, fs)

/-- `set_compress_attr` の設定。block の長さは 8 文字で切られる。 -/
def compressOptions (algo : Bytes) (blocksize : Nat) : List (Bytes × Bytes) :=
  [(ascii "compression", ascii "on"), (ascii "compression_algorithm", algo),
    (ascii "compression_blocksize", (decNat blocksize).take 8)]

/-- `compress_chunk` の 1 step。`none` は終わったか、落ちたこと。 -/
def compressStep (c : Codec) (algo : Bytes) (blocksize : Nat) (preserve : Bool) (w : Worker) (fs : Fs)
    (out : Outcome) : Option (Worker × Fs) :=
  match w.pc with
  | .start =>
    match fs.chunk, out with
    | some i, .ok =>
      let on := (fs.inode i).attrs.options.lookup (ascii "compression")
      if on.any fun v => strcaseeq v (ascii "on") then
        some ({ w with pc := .returned false false }, fs)
      else
        match initCompressionCtx (some algo) with
        | some a => some ({ w with pc := .stat, algo := a }, fs)
        | none => some ({ w with pc := .cleanup false }, fs)
    | _, _ => some ({ w with pc := .returned false false }, fs)
  | .stat => some (statPending w fs out)
  | .create => some (createPending w fs out)
  | .copyAttr => some (copyFattr w fs .compressAttr out)
  | .compressAttr =>
    some (attrPending w fs .openFiles
      (fun f => { f with attrs := { f.attrs with options := compressOptions algo blocksize } }) out)
  | .openFiles =>
    match fs.chunk, out with
    | some src, .ok =>
      let r := fs.openPending
      some ({ w with pc := .write, src := src, dst := r.1 }, r.2)
    | _, _ => none
  | .write =>
    let data := c.compress w.algo blocksize (fs.inode w.src).data
    match out with
    | .ok => some ({ w with pc := .sizeAttr }, fs.modify w.dst fun f => { f with data := data })
    | .fail n =>
      some ({ w with pc := .cleanup false },
        fs.modify w.dst fun f => { f with data := data.take n })
  | .sizeAttr =>
    let size := (c.compress w.algo blocksize (fs.inode w.src).data).length
    some (attrPending w fs .finish
      (fun f => { f with attrs := { f.attrs with compressedSize := some size } }) out)
  | .finish =>
    if preserve then
      match fs.chunk with
      | none => some ({ w with pc := .cleanup false }, fs)
      | some i =>
        let stamp := (fs.inode i).stamp
        some (attrPending w fs .rename (fun f => { f with stamp := stamp }) out)
    else some ({ w with pc := .rename }, fs)
  | .rename => some (renamePending w fs out)
  | .cleanup refused => some (removePending w fs false refused out)
  | .returned .. => none

/-- `uncompress_chunk2` の 1 step。始めの検査で失敗すると `tmp_path` が NULL なので何も消さない。 -/
def uncompressStep (c : Codec) (preserve keepPending : Bool) (w : Worker) (fs : Fs) (out : Outcome) :
    Option (Worker × Fs) :=
  match w.pc with
  | .start =>
    match fs.chunk, out with
    | some i, .ok =>
      let f := fs.inode i
      let on := f.attrs.options.lookup (ascii "compression")
      if on.any fun v => !(v.map toLower).isPrefixOf (ascii "on") then
        some ({ w with pc := .returned false false }, fs)
      else
        match initCompressionCtx (f.attrs.options.lookup (ascii "compression_algorithm")) with
        | none => none
        | some a =>
          if c.chunkInit a f then
            some ({ w with pc := .stat, algo := a, src := i, stamp := f.stamp }, fs)
          else some ({ w with pc := .returned false false }, fs)
    | _, _ => some ({ w with pc := .returned false false }, fs)
  | .stat => some (statPending w fs out)
  | .create => some (createPending w fs out)
  | .copyAttr => some (copyFattr w fs .openFiles out)
  | .openFiles =>
    match out with
    | .ok =>
      let r := fs.openPending
      some ({ w with pc := .write, dst := r.1 }, r.2)
    | .fail _ => none
  | .write =>
    let r := c.uncompress w.algo (fs.inode w.src)
    match out with
    | .ok =>
      some ({ w with pc := if r.1 then .finish else .cleanup false },
        fs.modify w.dst fun f => { f with data := r.2 })
    | .fail n =>
      some ({ w with pc := .cleanup false }, fs.modify w.dst fun f => { f with data := r.2.take n })
  | .finish =>
    if preserve then some (attrPending w fs .rename (fun f => { f with stamp := w.stamp }) out)
    else some ({ w with pc := .rename }, fs)
  | .rename => some (renamePending w fs out)
  | .cleanup refused => some (removePending w fs keepPending refused out)
  | .compressAttr | .sizeAttr | .returned .. => none

def Job.step (c : Codec) : Job → Worker → Fs → Outcome → Option (Worker × Fs)
  | .compress algo blocksize preserve => compressStep c algo blocksize preserve
  | .uncompress preserve keepPending => uncompressStep c preserve keepPending

/-! ## 段階 -/

/-- `.pending` があるために断られた -/
def Pc.refused : Pc → Bool
  | .cleanup refused | .returned refused _ => refused
  | _ => false

/-- `.pending` を作ったか、他の理由で失敗した -/
def Pc.past : Pc → Bool
  | .start | .stat | .create => false
  | pc => !pc.refused

section

variable {c : Codec} {w : Worker} {fs : Fs} {out : Outcome} {r : Worker × Fs}

theorem past_attrPending {next : Pc} {f : Inode → Inode} (hnext : next.past = true) :
    (attrPending w fs next f out).1.pc.past = true := by
  unfold attrPending
  split
  · split
    · exact hnext
    · rfl
  · rfl

theorem past_copyFattr {next : Pc} (hnext : next.past = true) :
    (copyFattr w fs next out).1.pc.past = true := by
  unfold copyFattr
  split
  · rfl
  · exact past_attrPending hnext

theorem past_renamePending : (renamePending w fs out).1.pc.past = true := by
  unfold renamePending
  split
  · split <;> rfl
  · rfl

/-- 1 step について分かること。作る前の step は何も変えないか、断られない側へ進み、そこからは戻らない。断られた worker の
step は出口だけ。 -/
inductive StepOk (keepPending : Bool) (w : Worker) (fs : Fs) (out : Outcome) (r : Worker × Fs) : Prop
  | early (before : w.pc.past = false) (notRefused : w.pc.refused = false)
      (after : r.2 = fs ∨ r.1.pc.past = true)
  | past (before : w.pc.past = true) (after : r.1.pc.past = true)
  | refused (before : w.pc = .cleanup true) (after : r = removePending w fs keepPending true out)

variable {keepPending refused preserve : Bool}

theorem stepOk_stat (hpc : w.pc = .stat) : StepOk keepPending w fs out (statPending w fs out) := by
  refine .early (by rw [hpc]; rfl) (by rw [hpc]; rfl) (.inl ?_)
  unfold statPending
  split <;> rfl

theorem stepOk_create (hpc : w.pc = .create) :
    StepOk keepPending w fs out (createPending w fs out) := by
  refine .early (by rw [hpc]; rfl) (by rw [hpc]; rfl) ?_
  unfold createPending
  split
  · exact .inl rfl
  split
  · exact .inr rfl
  · exact .inl rfl

theorem stepOk_cleanup (hpc : w.pc = .cleanup refused) :
    StepOk keepPending w fs out (removePending w fs keepPending refused out) := by
  cases refused with
  | false =>
    refine .past (by rw [hpc]; rfl) ?_
    unfold removePending
    split <;> rfl
  | true => exact .refused hpc rfl

theorem stepOk_compressStep {algo : Bytes} {blocksize : Nat}
    (h : compressStep c algo blocksize preserve w fs out = some r) : StepOk false w fs out r := by
  unfold compressStep at h
  split at h
  case h_1 hpc =>
    refine .early (by rw [hpc]; rfl) (by rw [hpc]; rfl) (.inl ?_)
    split at h
    · simp only at h
      split at h
      · rw [← some.inj h]
      · split at h <;> rw [← some.inj h]
    · rw [← some.inj h]
  case h_2 hpc => exact some.inj h ▸ stepOk_stat hpc
  case h_3 hpc => exact some.inj h ▸ stepOk_create hpc
  case h_4 hpc => exact .past (by rw [hpc]; rfl) (some.inj h ▸ past_copyFattr rfl)
  case h_5 hpc => exact .past (by rw [hpc]; rfl) (some.inj h ▸ past_attrPending rfl)
  case h_6 hpc =>
    refine .past (by rw [hpc]; rfl) ?_
    split at h
    · rw [← some.inj h]
      rfl
    · cases h
  case h_7 hpc =>
    refine .past (by rw [hpc]; rfl) ?_
    split at h <;> rw [← some.inj h] <;> rfl
  case h_8 hpc => exact .past (by rw [hpc]; rfl) (some.inj h ▸ past_attrPending rfl)
  case h_9 hpc =>
    refine .past (by rw [hpc]; rfl) ?_
    split at h
    · split at h
      · rw [← some.inj h]
        rfl
      · exact some.inj h ▸ past_attrPending rfl
    · rw [← some.inj h]
      rfl
  case h_10 hpc => exact .past (by rw [hpc]; rfl) (some.inj h ▸ past_renamePending)
  case h_11 hpc => exact some.inj h ▸ stepOk_cleanup hpc
  case h_12 => cases h

theorem stepOk_uncompressStep (h : uncompressStep c preserve keepPending w fs out = some r) :
    StepOk keepPending w fs out r := by
  unfold uncompressStep at h
  split at h
  case h_1 hpc =>
    refine .early (by rw [hpc]; rfl) (by rw [hpc]; rfl) (.inl ?_)
    split at h
    · simp only at h
      split at h
      · rw [← some.inj h]
      split at h
      · cases h
      · split at h <;> rw [← some.inj h]
    · rw [← some.inj h]
  case h_2 hpc => exact some.inj h ▸ stepOk_stat hpc
  case h_3 hpc => exact some.inj h ▸ stepOk_create hpc
  case h_4 hpc => exact .past (by rw [hpc]; rfl) (some.inj h ▸ past_copyFattr rfl)
  case h_5 hpc =>
    refine .past (by rw [hpc]; rfl) ?_
    split at h
    · rw [← some.inj h]
      rfl
    · cases h
  case h_6 hpc =>
    refine .past (by rw [hpc]; rfl) ?_
    split at h
    · rw [← some.inj h]
      split <;> rfl
    · rw [← some.inj h]
      rfl
  case h_7 hpc =>
    refine .past (by rw [hpc]; rfl) ?_
    split at h
    · exact some.inj h ▸ past_attrPending rfl
    · rw [← some.inj h]
      rfl
  case h_8 hpc => exact .past (by rw [hpc]; rfl) (some.inj h ▸ past_renamePending)
  case h_9 hpc => exact some.inj h ▸ stepOk_cleanup hpc
  all_goals cases h

/-- **worker の 1 step。** -/
theorem Job.stepOk (job : Job) (h : job.step c w fs out = some r) :
    StepOk job.keepsPending w fs out r := by
  cases job with
  | compress algo blocksize preserve => exact stepOk_compressStep h
  | uncompress preserve keepPending => exact stepOk_uncompressStep h

theorem Job.step_cleanup (job : Job) (hpc : w.pc = .cleanup refused) :
    job.step c w fs out = some (removePending w fs job.keepsPending refused out) := by
  cases job with
  | compress algo blocksize preserve =>
    rw [Job.step, compressStep.eq_def, hpc]
    rfl
  | uncompress preserve keepPending =>
    rw [Job.step, uncompressStep.eq_def, hpc]
    rfl

end

/-! ## 何人かの worker -/

/-- file system と worker の全体 -/
structure System (ι : Type) where
  fs : Fs
  worker : ι → Worker

section

variable {ι : Type} [DecidableEq ι] (c : Codec) (jobs : ι → Job)

/-- worker `l.1` が 1 step 進む -/
def System.step (s : System ι) (l : ι × Outcome) : Option (System ι) :=
  ((jobs l.1).step c (s.worker l.1) s.fs l.2).map fun r => ⟨r.2, Function.update s.worker l.1 r.1⟩

def System.init (fs : Fs) : System ι := ⟨fs, fun _ => .init⟩

/-- **断られた worker はfile system を変えない。** -/
def RefusedHarmless (fs : Fs) : Prop :=
  ∀ (s₁ s₂ s : System ι) (i : ι) (out : Outcome), Reachable (System.step c jobs) (.init fs) s₁ →
    s₁.step c jobs (i, out) = some s₂ → Reachable (System.step c jobs) s₂ s →
    (s.worker i).pc.refused = true → s₂.fs = s₁.fs

variable {c jobs} {s s' : System ι} {i : ι} {out : Outcome}

theorem step_eq_some {l : ι × Outcome} (h : s.step c jobs l = some s') :
    ∃ r, (jobs l.1).step c (s.worker l.1) s.fs l.2 = some r ∧ s'.fs = r.2 ∧
      s'.worker l.1 = r.1 ∧ ∀ j, j ≠ l.1 → s'.worker j = s.worker j := by
  obtain ⟨r, hr, rfl⟩ := map_eq_some_iff.mp h
  exact ⟨r, hr, rfl, Function.update_self _ _ _, fun j hj => Function.update_of_ne hj _ _⟩

theorem past_of_reachable (h : Reachable (System.step c jobs) s s')
    (hpast : (s.worker i).pc.past = true) : (s'.worker i).pc.past = true := by
  refine h.invariant (I := fun s => (s.worker i).pc.past = true) hpast ?_
  intro a b l ha _ hstep
  obtain ⟨r, hr, -, hself, hother⟩ := step_eq_some hstep
  by_cases hi : i = l.1
  · subst hi
    rw [hself]
    cases (jobs l.1).stepOk hr with
    | early hbefore _ _ =>
      rw [ha] at hbefore
      cases hbefore
    | past _ hafter => exact hafter
    | refused hbefore _ =>
      rw [hbefore] at ha
      cases ha
  · rw [hother i hi]
    exact ha

theorem refused_of_past {pc : Pc} (h : pc.past = true) : pc.refused = false := by
  cases pc <;> simp_all [Pc.past, Pc.refused]

theorem remove_eq_self_iff {fs : Fs} : fs.remove = fs ↔ fs.pending = none := by
  obtain ⟨chunk, pending, inode, fresh⟩ := fs
  simp [Fs.remove, eq_comm]

/-- **断られた worker が何も変えないのは、出口で、`.pending` を残す展開か `.pending` が既に無いとき。** -/
theorem refused_iff (c : Codec) (jobs : ι → Job) (fs : Fs) : RefusedHarmless c jobs fs ↔
    ∀ s, Reachable (System.step c jobs) (.init fs) s → ∀ i, (s.worker i).pc = .cleanup true →
      (jobs i).keepsPending = true ∨ s.fs.pending = none := by
  constructor
  · intro h s hs i hpc
    by_contra hne
    obtain ⟨hkeep, hpending⟩ := not_or.mp hne
    have hstep : s.step c jobs (i, .ok) = some ⟨s.fs.remove, Function.update s.worker i
        { s.worker i with pc := .returned true false }⟩ := by
      rw [System.step, (jobs i).step_cleanup hpc, removePending, if_neg hkeep]
      rfl
    refine hpending (remove_eq_self_iff.mp (h s _ _ i .ok hs hstep .refl ?_))
    simp only [Function.update_self]
    rfl
  · intro h s₁ s₂ s i out hs₁ hstep hs hrefused
    obtain ⟨r, hr, hfs, hself, -⟩ := step_eq_some hstep
    have hnotPast : r.1.pc.past = false := by
      by_contra hpast
      rw [Bool.not_eq_false, ← hself] at hpast
      rw [refused_of_past (past_of_reachable hs hpast)] at hrefused
      cases hrefused
    rw [hfs]
    cases (jobs i).stepOk hr with
    | early _ _ hafter =>
      refine hafter.resolve_right fun hpast => ?_
      rw [hnotPast] at hpast
      cases hpast
    | past _ hafter =>
      rw [hnotPast] at hafter
      cases hafter
    | refused hpc hafter =>
      rw [hafter, removePending.eq_def]
      split
      · rcases h s₁ hs₁ i hpc with hkeep | hpending
        · exact if_pos hkeep
        · simp [remove_eq_self_iff.mpr hpending]
      · rfl

end

def plainChunk : Fs := ⟨some 0, none, fun _ => .empty, 1⟩

def plainCodec : Codec := ⟨fun _ _ d => d, fun _ _ => true, fun _ f => (true, f.data)⟩

def twoCompressions : Bool → Job := fun _ => .compress (ascii "ZLIB") 1024 false

/-- **断られた worker が他の worker の `.pending` を消す。** -/
theorem other_pending_removed : ¬ RefusedHarmless plainCodec twoCompressions plainChunk := by
  intro h
  obtain ⟨s₁, hexec, hpending, s₂, hstep, hnone, hrefused⟩ :
      ∃ s₁ ∈ exec (System.step plainCodec twoCompressions) (.init plainChunk)
          [(true, .ok), (true, .ok), (true, .ok), (false, .ok), (false, .ok)],
        s₁.fs.pending = some 1 ∧ ∃ s₂ ∈ s₁.step plainCodec twoCompressions (false, .ok),
          s₂.fs.pending = none ∧ (s₂.worker false).pc.refused = true := by
    decide +kernel
  have hsame := h s₁ s₂ s₂ false .ok (reachable_of_exec _ hexec) hstep .refl hrefused
  rw [hsame, hpending] at hnone
  cases hnone

end Redcurrant.Rawx
