import Mathlib.Algebra.Ring.Nat
import Mathlib.Data.List.Basic
import Redcurrant.Infra.Run

/-!
# lock の表

`locktab_lock` は key の要素を作るか、空くのを待って持ち主になる。`locktab_unlock` は参照の数を減らし、0 なら捨てる。
-/

namespace Redcurrant.Metacd

open Infra List Function Option

variable {T K : Type} [DecidableEq T] [DecidableEq K]

structure LockElement (T : Type) where
  (id refCount : Nat)
  owner : Option T
  deriving DecidableEq

inductive Pc (K : Type)
  | idle
  /-- 捨てられている途中の要素を待つ -/
  | waitClosed (k : K)
  /-- 参照を数えてから、持ち主がいなくなるのを待つ -/
  | waitOwner (k : K) (le : Nat)
  /-- `on_destroy` の中 -/
  | closing (k : K) (le : Nat)
  deriving DecidableEq

/-- `struct locktab_s` と、thread の居場所 -/
structure Locktab (T K : Type) where
  onDestroy : Bool
  ht : K → Option (LockElement T)
  nextId : Nat
  pc : T → Pc K
  held : T → K → Nat

namespace Locktab

/-- `locktab_init` -/
def init (onDestroy : Bool) : Locktab T K := ⟨onDestroy, fun _ => none, 0, fun _ => .idle, fun _ _ => 0⟩

/-! ## step -/

variable (s : Locktab T K)

/-- 1 つの thread が 1 つの key の要素を書き換える -/
def write (t : T) (k : K) (le : Option (LockElement T)) (n : Nat) (pc : Pc K) : Locktab T K :=
  { s with
    ht := update s.ht k le
    held := update s.held t (update (s.held t) k n)
    pc := update s.pc t pc }

/-- 持ち主がいなければ持ち主になり、いれば待つ -/
def takeOrWait (t : T) (k : K) (le : LockElement T) : Locktab T K :=
  if le.owner ≠ none ∧ le.owner ≠ some t then
    s.write t k (some le) (s.held t k) (.waitOwner k le.id)
  else s.write t k (some { le with owner := some t }) (s.held t k + 1) .idle

/-- `locktab_lock` の loop の 1 回 -/
def lockPass (t : T) (k : K) : Locktab T K :=
  match s.ht k with
  | none =>
    { s.write t k (some ⟨s.nextId, 1, some t⟩) (s.held t k + 1) .idle with nextId := s.nextId + 1 }
  | some le =>
    if le.refCount = 0 then s.write t k (some le) (s.held t k) (.waitClosed k)
    else s.takeOrWait t k { le with refCount := (le.refCount + 1) % 2 ^ 32 }

/-- 待っていた thread が起きる -/
def wake (t : T) : Option (Locktab T K) :=
  match s.pc t with
  | .waitClosed k => some (s.lockPass t k)
  | .waitOwner k i =>
    match s.ht k with
    | none => none
    | some le => if le.id = i then some (s.takeOrWait t k le) else none
  | _ => none

/-- `locktab_unlock` の `on_destroy` の前まで。`none` は abort。 -/
def unlock (t : T) (k : K) : Option (Locktab T K) :=
  match s.ht k with
  | none => none
  | some le =>
    if le.owner ≠ some t then none
    else
      let refCount := (le.refCount + (2 ^ 32 - 1)) % 2 ^ 32
      if refCount ≠ 0 then
        some (s.write t k (some { le with refCount := refCount, owner := none }) (s.held t k - 1)
          .idle)
      else if s.onDestroy then
        some (s.write t k (some { le with refCount := refCount }) (s.held t k - 1)
          (.closing k le.id))
      else some (s.write t k none (s.held t k - 1) .idle)

def destroyed (t : T) : Option (Locktab T K) :=
  match s.pc t with
  | .closing k _ => some (s.write t k none (s.held t k) .idle)
  | _ => none

/-- 呼び出しと、待った後の続き -/
inductive Call (T K : Type)
  | lock (t : T) (k : K)
  | unlock (t : T) (k : K)
  | wake (t : T)
  | destroyed (t : T)

def step : Call T K → Option (Locktab T K)
  | .lock t k => if s.pc t = .idle then some (s.lockPass t k) else none
  | .unlock t k => if s.pc t = .idle then s.unlock t k else none
  | .wake t => s.wake t
  | .destroyed t => s.destroyed t

/-- 参照をもう 1 つ数えられる -/
def countable (k : K) : Bool := (s.ht k).all fun le => decide (le.refCount + 1 < 2 ^ 32)

/-- unlock は 1 度だけ lock した key で呼ばれ、参照の数はあふれない -/
def single : Call T K → Bool
  | .lock _ k => s.countable k
  | .unlock t k => decide (s.held t k = 1)
  | .wake t =>
    match s.pc t with
    | .waitClosed k => s.countable k
    | _ => true
  | .destroyed _ => true

/-! ## 1 つの key の不変条件 -/

/-- 要素 `el`、持つ数 `held`、thread の居場所 `pc` の間の関係 -/
structure KeyInv (k : K) (el : Option (LockElement T)) (held : T → Nat) (pc : T → Pc K) : Prop where
  absent : el = none → ∀ t, held t = 0 ∧ (∀ i, pc t ≠ .waitOwner k i) ∧ ∀ i, pc t ≠ .closing k i
  refs : ∀ {le}, el = some le → ∃ refs : List T, refs.length = le.refCount ∧
    ∀ t, refs.count t = held t + if pc t = .waitOwner k le.id then 1 else 0
  small : ∀ {le}, el = some le → le.refCount < 2 ^ 32
  owner : ∀ {le t}, el = some le → 0 < held t → le.owner = some t
  waiting : ∀ {le t i}, el = some le → pc t = .waitOwner k i → i = le.id
  closing : ∀ {le t i}, el = some le → pc t = .closing k i → le.refCount = 0
  closer : ∀ {t t' i i'}, pc t = .closing k i → pc t' = .closing k i' → t = t'

/-- 居場所がその key の要素に関わらない -/
def Pc.Apart (k : K) (pc : Pc K) : Prop := (∀ i, pc ≠ .waitOwner k i) ∧ ∀ i, pc ≠ .closing k i

omit [DecidableEq K] in
theorem Pc.apart_idle (k : K) : Apart k (.idle : Pc K) := ⟨nofun, nofun⟩

omit [DecidableEq K] in
theorem Pc.apart_waitClosed (k k' : K) : Apart k (.waitClosed k') := ⟨nofun, nofun⟩

omit [DecidableEq K] in
theorem Pc.apart_of_ne {k k' : K} (hne : k' ≠ k) (i : Nat) :
    Apart k (.waitOwner k' i) ∧ Apart k (.closing k' i) :=
  ⟨⟨fun _ h => hne (by injection h), nofun⟩, ⟨nofun, fun _ h => hne (by injection h)⟩⟩

namespace KeyInv

variable {k : K} {el : Option (LockElement T)} {le : LockElement T} {held : T → Nat}
  {pc : T → Pc K} {t : T}

theorem frame (h : KeyInv k el held pc) (hold : Pc.Apart k (pc t)) {pc' : Pc K}
    (hnew : Pc.Apart k pc') : KeyInv k el held (update pc t pc') := by
  have hwait : ∀ t' i, update pc t pc' t' = .waitOwner k i ↔ pc t' = .waitOwner k i := by
    intro t' i
    by_cases ht : t' = t
    · rw [ht, update_self]
      exact ⟨fun he => absurd he (hnew.1 i), fun he => absurd he (hold.1 i)⟩
    · rw [update_of_ne ht]
  have hclose : ∀ t' i, update pc t pc' t' = .closing k i ↔ pc t' = .closing k i := by
    intro t' i
    by_cases ht : t' = t
    · rw [ht, update_self]
      exact ⟨fun he => absurd he (hnew.2 i), fun he => absurd he (hold.2 i)⟩
    · rw [update_of_ne ht]
  refine ⟨fun hel t' => ?_, fun hel => ?_, h.small, h.owner, fun hel hw => h.waiting hel ((hwait _ _).mp hw),
    fun hel hc => h.closing hel ((hclose _ _).mp hc),
    fun hc hc' => h.closer ((hclose _ _).mp hc) ((hclose _ _).mp hc')⟩
  · obtain ⟨hheld, hw, hc⟩ := h.absent hel t'
    exact ⟨hheld, fun i hi => hw i ((hwait _ _).mp hi), fun i hi => hc i ((hclose _ _).mp hi)⟩
  obtain ⟨refs, hlen, hcount⟩ := h.refs hel
  refine ⟨refs, hlen, fun t' => ?_⟩
  rw [hcount t']
  simp only [hwait]

theorem fresh (h : KeyInv k none held pc) (id : Nat) :
    KeyInv k (some ⟨id, 1, some t⟩) (update held t (held t + 1)) (update pc t .idle) := by
  have hpc : ∀ t', Pc.Apart k (update pc t .idle t') := by
    intro t'
    by_cases ht : t' = t
    · rw [ht, update_self]
      exact Pc.apart_idle k
    · rw [update_of_ne ht]
      exact (h.absent rfl t').2
  have hheld : ∀ t', 0 < update held t (held t + 1) t' → t' = t := by
    intro t' hpos
    by_contra ht
    rw [update_of_ne ht, (h.absent rfl t').1] at hpos
    exact Nat.lt_irrefl 0 hpos
  refine ⟨nofun, ?_, ?_, ?_, fun _ hw => absurd hw ((hpc _).1 _), fun _ hc => absurd hc ((hpc _).2 _),
    fun hc => absurd hc ((hpc _).2 _)⟩
  · rintro le ⟨⟩
    refine ⟨[t], rfl, fun t' => ?_⟩
    rw [if_neg ((hpc t').1 id)]
    by_cases ht : t' = t
    · rw [ht, (h.absent rfl t).1]
      simp
    · rw [update_of_ne ht, (h.absent rfl t').1]
      simp [Ne.symm ht]
  · rintro le ⟨⟩
    exact Nat.one_lt_two_pow (by decide)
  · rintro le t' ⟨⟩ hpos
    rw [hheld t' hpos]

theorem takeOrWait (hrefs : ∃ refs : List T, refs.length = le.refCount ∧ refs.count t = held t + 1 ∧
      ∀ t' ≠ t, refs.count t' = held t' + if pc t' = .waitOwner k le.id then 1 else 0)
    (hsmall : le.refCount < 2 ^ 32) (howner : ∀ t', 0 < held t' → le.owner = some t')
    (hwaiting : ∀ t' ≠ t, ∀ i, pc t' = .waitOwner k i → i = le.id)
    (hclosing : ∀ t' ≠ t, ∀ i, pc t' ≠ .closing k i) :
    (¬ (le.owner ≠ none ∧ le.owner ≠ some t) →
      KeyInv k (some { le with owner := some t }) (update held t (held t + 1))
        (update pc t .idle)) ∧
    KeyInv k (some le) held (update pc t (.waitOwner k le.id)) := by
  obtain ⟨refs, hlen, hself, hothers⟩ := hrefs
  have hpc : ∀ {x : Pc K} {t' : T}, t' ≠ t → update pc t x t' = pc t' := fun ht =>
    update_of_ne ht _ _
  have hnone : ∀ {x : Pc K}, (∀ i, x ≠ .closing k i) → ∀ t' i, update pc t x t' ≠ .closing k i := by
    intro x hx t' i
    by_cases ht : t' = t
    · rw [ht, update_self]
      exact hx i
    · rw [hpc ht]
      exact hclosing t' ht i
  constructor
  · intro hfree
    have hclose := hnone (x := .idle) nofun
    refine ⟨nofun, ?_, ?_, ?_, ?_, fun _ hc => absurd hc (hclose _ _),
      fun hc _ => absurd hc (hclose _ _)⟩
    · rintro _ ⟨⟩
      refine ⟨refs, hlen, fun t' => ?_⟩
      by_cases ht : t' = t
      · rw [ht, update_self, update_self, hself, if_neg nofun]
      · rw [hpc ht, update_of_ne ht, hothers t' ht]
    · rintro _ ⟨⟩
      exact hsmall
    · rintro _ t' ⟨⟩ hpos
      by_cases ht : t' = t
      · rw [ht]
      rw [update_of_ne ht] at hpos
      have := howner t' hpos
      rw [this] at hfree
      exact absurd ⟨nofun, fun heq => ht (some.inj heq)⟩ hfree
    · rintro _ t' i ⟨⟩ hw
      by_cases ht : t' = t
      · rw [ht, update_self] at hw
        cases hw
      · exact hwaiting t' ht i (hpc ht ▸ hw)
  · have hclose := hnone (x := .waitOwner k le.id) nofun
    refine ⟨nofun, ?_, ?_, ?_, ?_, fun _ hc => absurd hc (hclose _ _),
      fun hc _ => absurd hc (hclose _ _)⟩
    · rintro _ ⟨⟩
      refine ⟨refs, hlen, fun t' => ?_⟩
      by_cases ht : t' = t
      · rw [ht, update_self, hself, if_pos rfl]
      · rw [hpc ht, hothers t' ht]
    · rintro _ ⟨⟩
      exact hsmall
    · rintro _ t' ⟨⟩ hpos
      exact howner t' hpos
    · rintro _ t' i ⟨⟩ hw
      by_cases ht : t' = t
      · rw [ht, update_self] at hw
        injection hw with _ hi
        exact hi.symm
      · exact hwaiting t' ht i (hpc ht ▸ hw)

theorem notClosing (h : KeyInv k (some le) held pc) (hpos : le.refCount ≠ 0) (t' : T) (i : Nat) :
    pc t' ≠ .closing k i := fun hc => hpos (h.closing rfl hc)

theorem countRef (h : KeyInv k (some le) held pc) (hpc : Pc.Apart k (pc t)) :
    ∃ refs : List T, refs.length = le.refCount + 1 ∧ refs.count t = held t + 1 ∧
      ∀ t' ≠ t, refs.count t' = held t' + if pc t' = .waitOwner k le.id then 1 else 0 := by
  obtain ⟨refs, hlen, hcount⟩ := h.refs rfl
  refine ⟨t :: refs, by rw [length_cons, hlen], ?_, fun t' ht => ?_⟩
  · rw [count_cons_self, hcount t, if_neg (hpc.1 _)]
  · rw [count_cons_of_ne (Ne.symm ht), hcount t']

section

variable (h : KeyInv k (some le) held pc) (hpc : Pc.Apart k (pc t)) (hheld : held t = 1)
include h hpc hheld

theorem dropRef : (∃ refs : List T, refs.length + 1 = le.refCount ∧
    ∀ t', refs.count t' = if pc t' = .waitOwner k le.id then 1 else 0) ∧
    ∀ t', update held t 0 t' = 0 := by
  obtain ⟨refs, hlen, hcount⟩ := h.refs rfl
  have hzero : ∀ t', update held t 0 t' = 0 := by
    intro t'
    by_cases ht : t' = t
    · rw [ht, update_self]
    rw [update_of_ne ht]
    by_contra hne
    have h1 := h.owner rfl (Nat.pos_of_ne_zero hne)
    have h2 := h.owner (t := t) rfl (by omega)
    rw [h1] at h2
    exact ht (some.inj h2)
  have hself := hcount t
  rw [if_neg (hpc.1 _), hheld] at hself
  have hmem : t ∈ refs := count_pos_iff.mp (by omega)
  refine ⟨⟨refs.erase t, ?_, fun t' => ?_⟩, hzero⟩
  · have := length_erase_of_mem hmem
    have := length_pos_of_mem hmem
    omega
  by_cases ht : t' = t
  · rw [ht, count_erase_self, hself, if_neg (hpc.1 _)]
  have hothers := hzero t'
  rw [update_of_ne ht] at hothers
  rw [count_erase_of_ne ht, hcount t', hothers, Nat.zero_add]

theorem release : KeyInv k (some { le with refCount := le.refCount - 1, owner := none })
    (update held t 0) (update pc t .idle) := by
  obtain ⟨⟨refs, hlen, hcount⟩, hzero⟩ := h.dropRef hpc hheld
  have hpc' : KeyInv k (some le) held (update pc t .idle) := h.frame hpc (Pc.apart_idle k)
  have hnone := hpc'.notClosing (by omega)
  refine ⟨nofun, ?_, ?_, fun _ hpos => ?_, ?_, fun _ hc => absurd hc (hnone _ _),
    fun hc _ => absurd hc (hnone _ _)⟩
  · rintro _ ⟨⟩
    refine ⟨refs, by change refs.length = le.refCount - 1; omega, fun t' => ?_⟩
    rw [hcount t', hzero t', Nat.zero_add]
    by_cases ht : t' = t
    · rw [ht, update_self, if_neg (hpc.1 _), if_neg nofun]
    · rw [update_of_ne ht]
  · rintro _ ⟨⟩
    have := h.small rfl
    change le.refCount - 1 < 2 ^ 32
    omega
  · rw [hzero] at hpos
    exact absurd hpos (Nat.lt_irrefl 0)
  · rintro _ t' i ⟨⟩ hw
    change i = le.id
    exact hpc'.waiting rfl hw

variable (hlast : le.refCount = 1)
include hlast

theorem notWaiting (t' : T) (i : Nat) : pc t' ≠ .waitOwner k i := by
  obtain ⟨⟨refs, hlen, hcount⟩, -⟩ := h.dropRef hpc hheld
  intro hw
  have hi := h.waiting rfl hw
  have := hcount t'
  rw [length_eq_zero_iff.mp (by omega : refs.length = 0), if_pos (hi ▸ hw)] at this
  cases this

theorem removed : KeyInv k none (update held t 0) (update pc t .idle) := by
  have hpc' : KeyInv k (some le) held (update pc t .idle) := h.frame hpc (Pc.apart_idle k)
  have hidle : Pc.Apart k (update pc t .idle t) := by
    rw [update_self]
    exact Pc.apart_idle k
  have hnone := hpc'.notClosing (by omega)
  exact ⟨fun _ t' => ⟨(h.dropRef hpc hheld).2 t', hpc'.notWaiting hidle hheld hlast t', hnone t'⟩,
    nofun, nofun, nofun, nofun, nofun, fun hc _ => absurd hc (hnone _ _)⟩

theorem closes : KeyInv k (some { le with refCount := 0 }) (update held t 0)
    (update pc t (.closing k le.id)) := by
  have hzero := (h.dropRef hpc hheld).2
  have hwait : ∀ t' i, update pc t (.closing k le.id) t' ≠ .waitOwner k i := by
    intro t' i
    by_cases ht : t' = t
    · rw [ht, update_self]
      nofun
    · rw [update_of_ne ht]
      exact h.notWaiting hpc hheld hlast t' i
  have hcloser : ∀ {t' i}, update pc t (.closing k le.id) t' = .closing k i → t' = t := by
    intro t' i hc
    by_contra ht
    rw [update_of_ne ht] at hc
    exact h.notClosing (by omega) t' i hc
  refine ⟨nofun, ?_, ?_, fun _ hpos => ?_, fun _ hw => absurd hw (hwait _ _), ?_,
    fun hc hc' => (hcloser hc).trans (hcloser hc').symm⟩
  · rintro _ ⟨⟩
    refine ⟨[], rfl, fun t' => ?_⟩
    rw [hzero t', if_neg (hwait t' _)]
    rfl
  · rintro _ ⟨⟩
    exact Nat.two_pow_pos 32
  · rw [hzero] at hpos
    exact absurd hpos (Nat.lt_irrefl 0)
  · rintro _ t' i ⟨⟩ _
    rfl

end

theorem destroyed {i : Nat} (h : KeyInv k el held pc) (hpc : pc t = .closing k i) :
    KeyInv k none held (update pc t .idle) := by
  cases el with
  | none => exact absurd hpc ((h.absent rfl t).2.2 i)
  | some le =>
    obtain ⟨refs, hlen, hcount⟩ := h.refs rfl
    have hnil : refs = [] := length_eq_zero_iff.mp (hlen.trans (h.closing rfl hpc))
    have hall : ∀ t', held t' = 0 ∧ pc t' ≠ .waitOwner k le.id := by
      intro t'
      have := hcount t'
      rw [hnil, count_nil] at this
      split at this
      · omega
      · rename_i hne
        exact ⟨by omega, hne⟩
    have hclose : ∀ t' j, update pc t .idle t' ≠ .closing k j := by
      intro t' j hc
      by_cases ht : t' = t
      · rw [ht, update_self] at hc
        cases hc
      · rw [update_of_ne ht] at hc
        exact ht (h.closer hc hpc)
    refine ⟨fun _ t' => ⟨(hall t').1, fun j hw => ?_, hclose t'⟩, nofun, nofun, nofun, nofun, nofun,
      fun hc _ => absurd hc (hclose _ _)⟩
    by_cases ht : t' = t
    · rw [ht, update_self] at hw
      cases hw
    · rw [update_of_ne ht] at hw
      exact (hall t').2 (h.waiting rfl hw ▸ hw)

end KeyInv

/-! ## 表の不変条件 -/

/-- どの key でも要素と thread が合う -/
def Inv : Prop := ∀ k, KeyInv k (s.ht k) (fun t => s.held t k) s.pc

section

variable {s s' : Locktab T K} {t : T} {k : K} {el : Option (LockElement T)} {n : Nat} {pc : Pc K}

theorem Inv.write (h : s.Inv) (hkey : KeyInv k el (update (fun t' => s.held t' k) t n)
      (update s.pc t pc))
    (hold : ∀ k' ≠ k, Pc.Apart k' (s.pc t)) (hnew : ∀ k' ≠ k, Pc.Apart k' pc) :
    (s.write t k el n pc).Inv := by
  have hheld : ∀ k', (fun t' => (s.write t k el n pc).held t' k') =
      if k' = k then update (fun t' => s.held t' k) t n else fun t' => s.held t' k' := by
    intro k'
    funext t'
    change update s.held t (update (s.held t) k n) t' k' = _
    by_cases hk : k' = k
    · rw [if_pos hk, hk]
      by_cases ht : t' = t
      · rw [ht, update_self, update_self, update_self]
      · rw [update_of_ne ht, update_of_ne ht]
    rw [if_neg hk]
    by_cases ht : t' = t
    · rw [ht, update_self, update_of_ne hk]
    · rw [update_of_ne ht]
  intro k'
  rw [hheld k']
  change KeyInv k' (update s.ht k el k') _ (update s.pc t pc)
  by_cases hk : k' = k
  · rw [if_pos hk, hk, update_self]
    exact hkey
  · rw [if_neg hk, update_of_ne hk]
    exact (h k').frame (hold k' hk) (hnew k' hk)

omit [DecidableEq K] in
theorem held_update_self (s : Locktab T K) (t : T) (k : K) :
    update (fun t' => s.held t' k) t (s.held t k) = fun t' => s.held t' k :=
  update_eq_self t fun t' => s.held t' k

variable (h : s.Inv)
include h

theorem Inv.takeOrWait {le : LockElement T} (hold : ∀ k' ≠ k, Pc.Apart k' (s.pc t))
    (hrefs : ∃ refs : List T, refs.length = le.refCount ∧ refs.count t = s.held t k + 1 ∧
      ∀ t' ≠ t, refs.count t' = s.held t' k + if s.pc t' = .waitOwner k le.id then 1 else 0)
    (hsmall : le.refCount < 2 ^ 32) (howner : ∀ t', 0 < s.held t' k → le.owner = some t')
    (hwaiting : ∀ t' ≠ t, ∀ i, s.pc t' = .waitOwner k i → i = le.id)
    (hclosing : ∀ t' ≠ t, ∀ i, s.pc t' ≠ .closing k i) : (s.takeOrWait t k le).Inv := by
  obtain ⟨htake, hwait⟩ := KeyInv.takeOrWait hrefs hsmall howner hwaiting hclosing
  unfold Locktab.takeOrWait
  split
  · refine h.write ?_ hold fun k' hk => (Pc.apart_of_ne (Ne.symm hk) _).1
    rw [held_update_self]
    exact hwait
  · rename_i hfree
    exact h.write (htake hfree) hold fun k' _ => Pc.apart_idle k'

theorem Inv.lockPass (hpc : ∀ k', Pc.Apart k' (s.pc t)) (hcount : s.countable k = true) :
    (s.lockPass t k).Inv := by
  unfold Locktab.lockPass
  split
  · rename_i hel
    have hkey := h k
    rw [hel] at hkey
    exact h.write (hkey.fresh s.nextId) (fun k' _ => hpc k') fun k' _ => Pc.apart_idle k'
  rename_i le hel
  have hkey := h k
  rw [hel] at hkey
  split
  · refine h.write ?_ (fun k' _ => hpc k') fun k' _ => Pc.apart_waitClosed k' k
    rw [held_update_self]
    exact hkey.frame (hpc k) (Pc.apart_waitClosed k k)
  rename_i hpos
  unfold countable at hcount
  rw [hel, all_some, decide_eq_true_eq] at hcount
  have hmod : (le.refCount + 1) % 2 ^ 32 = le.refCount + 1 := Nat.mod_eq_of_lt hcount
  rw [hmod]
  exact h.takeOrWait (fun k' _ => hpc k') (hkey.countRef (hpc k)) hcount
    (fun t' hheld => show le.owner = some t' from hkey.owner rfl hheld)
    (fun t' _ i hw => show i = le.id from hkey.waiting rfl hw)
    fun t' _ i => hkey.notClosing hpos t' i

theorem Inv.wake (hsingle : s.single (.wake t) = true) (hs : s.wake t = some s') : s'.Inv := by
  unfold Locktab.wake at hs
  split at hs
  · rename_i k hpc
    cases hs
    refine h.lockPass (fun k' => ?_) ?_
    · rw [hpc]
      exact Pc.apart_waitClosed k' k
    · simpa only [single, hpc] using hsingle
  · rename_i k i hpc
    split at hs
    · cases hs
    rename_i le hel
    split at hs
    · rename_i hi
      cases hs
      have hkey := h k
      rw [hel] at hkey
      obtain ⟨refs, hlen, hcount⟩ := hkey.refs rfl
      have hself : refs.count t = s.held t k + 1 := by
        rw [hcount t, if_pos (hi ▸ hpc)]
      have hpos : le.refCount ≠ 0 := by
        intro hzero
        rw [length_eq_zero_iff.mp (hlen.trans hzero)] at hself
        cases hself
      refine h.takeOrWait (fun k' hk => ?_) ⟨refs, hlen, hself, fun t' _ => hcount t'⟩
        (hkey.small rfl) (fun t' hheld => hkey.owner rfl hheld)
        (fun t' _ j hw => hkey.waiting rfl hw) fun t' _ j => hkey.notClosing hpos t' j
      rw [hpc]
      exact (Pc.apart_of_ne (Ne.symm hk) _).1
    · cases hs
  · cases hs

theorem Inv.unlock (hpc : s.pc t = .idle) (hheld : s.held t k = 1) (hs : s.unlock t k = some s') :
    s'.Inv := by
  have hidle : ∀ k', Pc.Apart k' (s.pc t) := fun k' => hpc ▸ Pc.apart_idle k'
  unfold Locktab.unlock at hs
  split at hs
  · cases hs
  rename_i le hel
  have hkey := h k
  rw [hel] at hkey
  obtain ⟨⟨refs, hlen, -⟩, -⟩ := hkey.dropRef (hidle k) hheld
  have hsmall := hkey.small rfl
  have hmod : (le.refCount + (2 ^ 32 - 1)) % 2 ^ 32 = le.refCount - 1 := by omega
  rw [hmod, hheld] at hs
  simp only at hs
  split at hs
  · cases hs
  split at hs
  · cases hs
    exact h.write (hkey.release (hidle k) hheld) (fun k' _ => hidle k') fun k' _ => Pc.apart_idle k'
  have hlast : le.refCount = 1 := by omega
  split at hs
  · cases hs
    refine h.write ?_ (fun k' _ => hidle k') fun k' hk => (Pc.apart_of_ne (Ne.symm hk) _).2
    have hclose := hkey.closes (hidle k) hheld hlast
    rw [hlast]
    exact hclose
  · cases hs
    exact h.write (hkey.removed (hidle k) hheld hlast) (fun k' _ => hidle k') fun k' _ =>
      Pc.apart_idle k'

theorem Inv.destroyed (hs : s.destroyed t = some s') : s'.Inv := by
  unfold Locktab.destroyed at hs
  split at hs
  · rename_i k i hpc
    cases hs
    refine h.write ?_ (fun k' hk => ?_) fun k' _ => Pc.apart_idle k'
    · rw [held_update_self]
      exact (h k).destroyed hpc
    · rw [hpc]
      exact (Pc.apart_of_ne (Ne.symm hk) _).2
  · cases hs

theorem Inv.step {call : Call T K} (hsingle : s.single call = true) (hs : s.step call = some s') :
    s'.Inv := by
  cases call with
  | lock t k =>
    change (if s.pc t = .idle then some (s.lockPass t k) else none) = some s' at hs
    split at hs
    · rename_i hpc
      cases hs
      exact h.lockPass (fun k' => hpc ▸ Pc.apart_idle k') hsingle
    · cases hs
  | unlock t k =>
    change (if s.pc t = .idle then s.unlock t k else none) = some s' at hs
    split at hs
    · rename_i hpc
      exact h.unlock hpc (of_decide_eq_true hsingle) hs
    · cases hs
  | wake t => exact h.wake hsingle hs
  | destroyed t => exact h.destroyed hs

end

/-! ## 排他 -/

/-- key を持つ thread は高々 1 つで、持つ間は表の持ち主 -/
def Exclusive : Prop :=
  ∀ k, (∀ t t', 0 < s.held t k → 0 < s.held t' k → t = t') ∧
    ∀ t, 0 < s.held t k → ∃ le, s.ht k = some le ∧ le.owner = some t

/-- **1 度だけ lock した key だけを unlock する run では、key を持つ thread は高々 1 つ。** -/
theorem exclusive_of_single {onDestroy : Bool} {s : Locktab T K}
    (h : Reach step (fun s call => s.single call = true) (init onDestroy) s) : s.Exclusive := by
  have hinv : s.Inv := by
    refine h.invariant (fun k => ?_) fun hinv hsingle hs => hinv.step hsingle hs
    exact ⟨fun _ _ => ⟨rfl, nofun, nofun⟩, nofun, nofun, nofun, nofun, nofun, nofun⟩
  intro k
  have howner : ∀ t, 0 < s.held t k → ∃ le, s.ht k = some le ∧ le.owner = some t := by
    intro t hpos
    cases hel : s.ht k with
    | none => exact absurd ((hinv k).absent hel t).1 (Nat.ne_of_gt hpos)
    | some le => exact ⟨le, rfl, (hinv k).owner hel hpos⟩
  refine ⟨fun t t' hpos hpos' => ?_, howner⟩
  obtain ⟨le, hel, hle⟩ := howner t hpos
  obtain ⟨le', hel', hle'⟩ := howner t' hpos'
  obtain rfl : le = le' := some.inj (hel.symm.trans hel')
  exact some.inj (hle.symm.trans hle')

/-- 2 つの thread が 1 つの key を順に持つ -/
theorem exclusive_handover : ∃ s : Locktab Nat Nat,
    exec step (init true) [.lock 0 7, .lock 1 7, .unlock 0 7, .wake 1] = some s ∧
      s.held 1 7 = 1 ∧ s.Exclusive := by
  obtain ⟨s, hrun, hheld⟩ : ∃ s : Locktab Nat Nat,
      s ∈ exec step (init true) [.lock 0 7, .lock 1 7, .unlock 0 7, .wake 1] ∧ s.held 1 7 = 1 := by
    decide
  exact ⟨s, hrun, hheld, exclusive_of_single (reach_of_exec _ (by decide) hrun)⟩

/-- 2 度 lock した thread が 1 度 unlock すると、別の thread も key を持つ -/
theorem recursive_lock_shared :
    (exec step (init true) [.lock 0 7, .lock 0 7, .unlock 0 7, .lock 1 7]).map
      (fun s : Locktab Nat Nat => (s.held 0 7, s.held 1 7)) = some (1, 1) := by
  decide

end Locktab

end Redcurrant.Metacd
