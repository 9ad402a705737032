import Redcurrant.Meta2.Purge

/-!
# 削除済みの alias の保持

`_purge_deleted_aliases` は最新の行ではなく名前ごとの任意の 1 行を見る。snapshot に属する生きた行を持つ名前には
削除済みの行が書き込まれる。
-/

namespace Redcurrant.Meta2

open Infra Sqliterepo List

namespace Base

variable {b b' : Base} {name : Bytes} {a r : Alias} {choice₁ choice₂ : Bytes → Nat}
variable {now delay : Int}

/-! ## 任意の 1 行 -/

variable {l out : List Alias}

theorem bareRow_mem {choice : Bytes → Nat} (h : bareRow choice name l = some a) :
    a ∈ l := mem_of_getElem? h

theorem exists_bareRow (h : a ∈ l) (name : Bytes) : ∃ choice, bareRow choice name l = some a := by
  obtain ⟨i, hi, he⟩ := mem_iff_getElem.mp h
  refine ⟨fun _ => i, ?_⟩
  rw [bareRow, Nat.mod_eq_of_lt hi, List.getElem?_eq_getElem hi, he]

/-- 名前の snapshot に属する最新の version が 0 でないこと（`HAVING max(version)`） -/
def SnapshotNotZero (b : Base) (name : Bytes) : Prop :=
  ∃ z, maxRow Alias.version ((b.aliasRows name).filter b.inSnapshot) = some z ∧ z.version ≠ 0

theorem mem_snapshotGroup : a ∈ b.snapshotGroup name ↔
    (a ∈ b.aliasRows name ∧ b.inSnapshot a = true) ∧
      (∃ d ∈ b.aliasRows name, d.deleted = true) ∧ b.SnapshotNotZero name := by
  constructor
  · intro h
    simp only [snapshotGroup] at h
    split at h
    · next hd =>
      split at h
      · next hv =>
        obtain ⟨z, hz, hne⟩ := (Option.any_eq_true _ _).mp hv
        exact ⟨mem_filter.mp h, any_eq_true.mp hd, z, hz, by simpa using hne⟩
      · cases h
    · simp at h
  · rintro ⟨hm, hd, z, hz, hne⟩
    simp only [snapshotGroup, if_pos (any_eq_true.mpr hd), hz, Option.any_some,
      decide_eq_true hne, if_true]
    exact mem_filter.mpr hm

theorem mem_snapshotGroup_of_mem (hr : r ∈ b.snapshotGroup name) (ha : a ∈ b.aliasRows name)
    (hs : b.inSnapshot a = true) : a ∈ b.snapshotGroup name :=
  mem_snapshotGroup.mpr ⟨⟨ha, hs⟩, (mem_snapshotGroup.mp hr).2⟩

theorem alias_of_mem_snapshotGroup (h : a ∈ b.snapshotGroup name) : a.alias = name :=
  (mem_aliasRows.mp (mem_snapshotGroup.mp h).1.1).2

/-! ## purge の後の行 -/

theorem redeleted_alias (b : Base) (a : Alias) : (b.redeleted a).alias = a.alias := rfl

theorem redeleted_version (b : Base) (a : Alias) : (b.redeleted a).version = 1 + a.version := rfl

theorem mem_oldDeleted {x : Alias} :
    x ∈ ((b.oldDeleted choice₂).filter fun a => !a.deleted).map b.redeleted ↔
      ∃ r, bareRow choice₂ x.alias (b.snapshotGroup x.alias) = some r ∧ r.deleted = false ∧
        x = b.redeleted r := by
  simp only [mem_map, mem_filter, Bool.not_eq_true', oldDeleted, mem_filterMap]
  constructor
  · rintro ⟨r, ⟨⟨n, -, hb⟩, hd⟩, rfl⟩
    have hn : r.alias = n := alias_of_mem_snapshotGroup (bareRow_mem hb)
    exact ⟨r, by rw [redeleted_alias, hn]; exact hb, hd, rfl⟩
  · rintro ⟨r, hb, hd, rfl⟩
    have hm := mem_aliasRows.mp (mem_snapshotGroup.mp (bareRow_mem hb)).1.1
    exact ⟨r, ⟨⟨_, mem_aliasNames.mpr ⟨r, hm.1, hm.2⟩, hb⟩, hd⟩, rfl⟩

def Survives (b : Base) (choice₁ : Bytes → Nat) (limit : Int) (a : Alias) : Prop :=
  a ∈ b.aliases.rows ∧ ¬ (b.expired choice₁ limit a.alias = true ∧ b.inSnapshot a = false)

theorem mem_purgeDeleted (h : b.purgeDeletedAliases choice₁ choice₂ now delay = .ok (b', out)) :
    (a ∈ b'.aliases.rows → b.Survives choice₁ (timeLimit now delay) a ∨
      ∃ r, bareRow choice₂ a.alias (b.snapshotGroup a.alias) = some r ∧ r.deleted = false ∧
        a = b.redeleted r) ∧
    ((∃ r, bareRow choice₂ a.alias (b.snapshotGroup a.alias) = some r ∧ r.deleted = false ∧
        a = b.redeleted r) → a ∈ b'.aliases.rows) ∧
    (b.Survives choice₁ (timeLimit now delay) a →
      (∀ r, bareRow choice₂ a.alias (b.snapshotGroup a.alias) = some r → r.deleted = false →
        (b.redeleted r).version = a.version → b.redeleted r = a) → a ∈ b'.aliases.rows) := by
  simp only [purgeDeletedAliases] at h
  split at h
  · cases h
  cases h
  have hsurv : ∀ a, a ∈ (b.aliases.eraseAll (b.aliases.rows.filter fun a =>
      b.expired choice₁ (timeLimit now delay) a.alias && !b.inSnapshot a)).rows ↔
        b.Survives choice₁ (timeLimit now delay) a := by
    intro a
    rw [RowTable.mem_eraseAll_of_subset _ fun x hx => mem_of_mem_filter hx]
    simp only [Survives, mem_filter, Alias.pk, Option.isSome_some, and_true,
      Bool.and_eq_true, Bool.not_eq_true']
    tauto
  refine ⟨fun ha => ?_, fun ha => ?_, fun hs hc => ?_⟩
  · rcases RowTable.mem_of_replaceAll _ ha with ha | ha
    · exact .inr (mem_oldDeleted.mp ha)
    · exact .inl ((hsurv a).mp ha)
  · refine RowTable.mem_replaceAll _ (.inl (mem_oldDeleted.mpr ha)) fun x hx hcl => ?_
    obtain ⟨r, hb, -, rfl⟩ := ha
    obtain ⟨r', hb', -, rfl⟩ := mem_oldDeleted.mp hx
    rw [(clash_alias.mp hcl).1, hb, Option.some.injEq] at hb'
    rw [hb']
  · refine RowTable.mem_replaceAll _ (.inr ((hsurv a).mpr hs)) fun x hx hcl => ?_
    obtain ⟨hn, hv⟩ := clash_alias.mp hcl
    obtain ⟨r, hb, hd, rfl⟩ := mem_oldDeleted.mp hx
    exact hc r (hn ▸ hb) hd hv

/-! ## 守られるべき名前 -/

/-- 最新の version が生きているか、`delay` より最近に削除された名前 -/
def Protected (b : Base) (now delay : Int) (name : Bytes) : Prop :=
  ∃ a, b.latestRow name = some a ∧ (a.deleted = false ∨ 0 ≤ a.ctime ∧ now - a.ctime < delay)

/-- 名前の行が前後で同じであること -/
def SameRows (b b' : Base) (name : Bytes) : Prop :=
  ∀ a : Alias, a.alias = name → (a ∈ b'.aliases.rows ↔ a ∈ b.aliases.rows)

/-- どの 1 行が選ばれても、名前の行が変わらない条件 -/
structure Undisturbed (b : Base) (limit : Int) (name : Bytes) : Prop where
  /-- `limit` より古い削除済みの行があれば、行はすべて snapshot に属する -/
  kept : (∃ d ∈ b.aliasRows name, d.deleted = true ∧ d.ctime < limit) →
    ∀ a ∈ b.aliasRows name, b.inSnapshot a = true
  /-- 削除済みの行があれば、snapshot に属する生きた行の次はその写し -/
  marked : (∃ d ∈ b.aliasRows name, d.deleted = true) → b.SnapshotNotZero name →
    ∀ r ∈ b.aliasRows name, b.inSnapshot r = true → r.deleted = false → { r with
        version := 1 + r.version
        containerVersion := 1 + b.version
        deleted := true } ∈ b.aliases.rows

theorem expired_iff {limit : Int} : b.expired choice₁ limit name = true ↔
    ∃ d, bareRow choice₁ name (b.aliasRows name) = some d ∧ d.deleted = true ∧ d.ctime < limit := by
  simp [expired, Option.any_eq_true]

theorem Undisturbed.sameRows (hu : b.Undisturbed (timeLimit now delay) name)
    (h : b.purgeDeletedAliases choice₁ choice₂ now delay = .ok (b', out)) : b.SameRows b' name := by
  intro a hn
  subst hn
  have hmark : ∀ r, bareRow choice₂ a.alias (b.snapshotGroup a.alias) = some r →
      r.deleted = false → b.redeleted r ∈ b.aliases.rows :=
    fun r hb hd =>
      have hg := mem_snapshotGroup.mp (bareRow_mem hb)
      hu.marked hg.2.1 hg.2.2 r hg.1.1 hg.1.2 hd
  constructor
  · intro ha
    rcases (mem_purgeDeleted h).1 ha with hs | ⟨r, hb, hd, rfl⟩
    · exact hs.1
    · exact hmark r hb hd
  · intro ha
    refine (mem_purgeDeleted h).2.2 ⟨ha, ?_⟩ fun r hb hd hv => ?_
    · rintro ⟨he, hs⟩
      obtain ⟨d, hb, hd⟩ := expired_iff.mp he
      rw [hu.kept ⟨d, bareRow_mem hb, hd⟩ a (mem_aliasRows.mpr ⟨ha, rfl⟩)] at hs
      cases hs
    · have hr := alias_of_mem_snapshotGroup (bareRow_mem hb)
      exact alias_unique (hmark r hb hd) ha hr hv

theorem not_lt_timeLimit (hc : 0 ≤ a.ctime) (hr : now - a.ctime < delay) :
    ¬ a.ctime < timeLimit now delay := by
  simp only [timeLimit]
  split <;> omega

theorem purgeDeleted_isOk (b : Base) (choice₁ choice₂ : Bytes → Nat) (hnow : 0 ≤ now)
    (delay : Int) : ∃ b' out, b.purgeDeletedAliases choice₁ choice₂ now delay = .ok (b', out) := by
  simp [purgeDeletedAliases, Int.not_lt.mpr hnow]

section

variable (hnow : 0 ≤ now) (h : ∀ choice₁ choice₂ b' out,
    b.purgeDeletedAliases choice₁ choice₂ now delay = .ok (b', out) → b.SameRows b' name)
include hnow h

section

variable {d x : Alias} (hd : d ∈ b.aliasRows name) (hdel : d.deleted = true)
  (hlim : d.ctime < timeLimit now delay) (hx : x ∈ b.aliasRows name) (hxs : b.inSnapshot x = false)
include hd hdel hlim hx hxs

theorem erased_returns (choice₂ : Bytes → Nat) :
    ∃ r, bareRow choice₂ name (b.snapshotGroup name) = some r ∧ r.deleted = false ∧
      x = b.redeleted r := by
  obtain ⟨choice₁, hc1⟩ := exists_bareRow hd name
  have hexp : b.expired choice₁ (timeLimit now delay) name = true :=
    expired_iff.mpr ⟨d, hc1, hdel, hlim⟩
  obtain ⟨hxm, hxn⟩ := mem_aliasRows.mp hx
  obtain ⟨b', out, hok⟩ := b.purgeDeleted_isOk choice₁ choice₂ hnow delay
  have hmem := (h choice₁ choice₂ b' out hok x hxn).mpr hxm
  rcases (mem_purgeDeleted hok).1 hmem with hsv | hr
  · exact absurd ⟨hxn.symm ▸ hexp, hxs⟩ hsv.2
  · exact hxn ▸ hr

theorem erased_eq_redeleted : (∃ r, r ∈ b.snapshotGroup name) ∧
    ∀ r ∈ b.snapshotGroup name, r.deleted = false ∧ x = b.redeleted r := by
  constructor
  · obtain ⟨r, hb, -⟩ := erased_returns hnow h hd hdel hlim hx hxs fun _ => 0
    exact ⟨r, bareRow_mem hb⟩
  · intro r hr
    obtain ⟨choice₂, hc2⟩ := exists_bareRow hr name
    obtain ⟨r', hb, hrd, hxr⟩ := erased_returns hnow h hd hdel hlim hx hxs choice₂
    rw [hc2] at hb
    cases hb
    exact ⟨hrd, hxr⟩

end

/-- 消される行が戻っても、それは最新の行で、守られるべき名前では `time_limit` より古くない -/
theorem kept_of_sameRows (hp : b.Protected now delay name) {d : Alias} (hd : d ∈ b.aliasRows name)
    (hdel : d.deleted = true) (hlim : d.ctime < timeLimit now delay) (ha : a ∈ b.aliasRows name) :
    b.inSnapshot a = true := by
  by_contra hs
  rw [Bool.not_eq_true] at hs
  have hcopy : ∀ x ∈ b.aliasRows name, b.inSnapshot x = false →
      ∀ r ∈ b.snapshotGroup name, r.deleted = false ∧ x = b.redeleted r := fun x hx hxs =>
    (erased_eq_redeleted hnow h hd hdel hlim hx hxs).2
  obtain ⟨r, hr⟩ := (erased_eq_redeleted hnow h hd hdel hlim ha hs).1
  have har := (hcopy a ha hs r hr).2
  -- 古い削除済みの行は snapshot に属さず、`a`
  have hds : b.inSnapshot d = false := by
    by_contra hsd
    rw [Bool.not_eq_false] at hsd
    have hlive := (hcopy a ha hs d (mem_snapshotGroup_of_mem hr hd hsd)).1
    rw [hdel] at hlive
    cases hlive
  have hda : d = a := (hcopy d hd hds r hr).2.trans har.symm
  -- 名前の行は `r` と `a` だけで、`a` が最新
  obtain ⟨z, hz, hzp⟩ := hp
  have hzm := mem_aliasRows.mpr (latestRow_mem hz)
  have hza : z = a := by
    cases hzs : b.inSnapshot z with
    | false => exact (hcopy z hzm hzs r hr).2.trans har.symm
    | true =>
      have haz := (hcopy a ha hs z (mem_snapshotGroup_of_mem hr hzm hzs)).2
      have hle := latestRow_le hz (mem_aliasRows.mp ha).1 (mem_aliasRows.mp ha).2
      rw [haz, redeleted_version] at hle
      omega
  subst hza
  subst hda
  rcases hzp with hlive | ⟨hc, hrec⟩
  · rw [hdel] at hlive
    cases hlive
  · exact not_lt_timeLimit hc hrec hlim

theorem marked_of_sameRows (hr : r ∈ b.snapshotGroup name) (hrd : r.deleted = false) :
    b.redeleted r ∈ b.aliases.rows := by
  obtain ⟨choice₂, hc2⟩ := exists_bareRow hr name
  obtain ⟨b', out, hok⟩ := b.purgeDeleted_isOk (fun _ => 0) choice₂ hnow delay
  have hrn := alias_of_mem_snapshotGroup hr
  have hmem := (mem_purgeDeleted (a := b.redeleted r) hok).2.1
    ⟨r, by rw [redeleted_alias, hrn]; exact hc2, hrd, rfl⟩
  exact (h _ _ b' out hok (b.redeleted r) hrn).mp hmem

theorem undisturbed_of_sameRows (hp : b.Protected now delay name) :
    b.Undisturbed (timeLimit now delay) name where
  kept := by
    rintro ⟨d, hd, hdel, hlim⟩ a ha
    exact kept_of_sameRows hnow h hp hd hdel hlim ha
  marked := by
    intro hdel hz r hrm hrs hrd
    exact marked_of_sameRows hnow h (mem_snapshotGroup.mpr ⟨⟨hrm, hrs⟩, hdel, hz⟩) hrd

end

/-- **削除済みの alias の purge。** 守られるべき名前の行が変わらないのは、古い削除済みの行があれば全部の行が snapshot に
属し、写されうる生きた行の写しがすでにあるときに限る。 -/
theorem purgeDeleted_protects_iff (b : Base) (now delay : Int) (hnow : 0 ≤ now) :
    (∀ choice₁ choice₂ b' out, b.purgeDeletedAliases choice₁ choice₂ now delay = .ok (b', out) →
        ∀ name, b.Protected now delay name → b.SameRows b' name) ↔
      ∀ name, b.Protected now delay name → b.Undisturbed (timeLimit now delay) name := by
  constructor
  · intro h name hp
    exact undisturbed_of_sameRows hnow (fun c₁ c₂ b' out hok => h c₁ c₂ b' out hok name hp) hp
  · intro h c₁ c₂ b' out hok name hp
    exact (h name hp).sameRows hok

/-! ### 生きている名前が消える場合 -/

/-- 最新の version が 5 秒前に削除された名前の行は残る -/
theorem purgeDeleted_deletedLast : deletedLast.Protected 5 10 (ascii "a") ∧
    ∃ b' out, deletedLast.purgeDeletedAliases (fun _ => 0) (fun _ => 0) 5 10 = .ok (b', out) ∧
      deletedLast.SameRows b' (ascii "a") := by
  have hlatest : deletedLast.latestRow (ascii "a") =
      some ⟨ascii "a", 3, 3, ascii "x", [], 0, true⟩ := by decide +kernel
  have hprot : deletedLast.Protected 5 10 (ascii "a") := ⟨_, hlatest, .inr ⟨by decide, by decide⟩⟩
  have hctime : ∀ a ∈ deletedLast.aliases.rows, a.ctime = 0 := by decide +kernel
  have hcond : ∀ name, deletedLast.Undisturbed (timeLimit 5 10) name := by
    refine fun name => ⟨?_, ?_⟩
    · rintro ⟨d, hd, -, hlim⟩
      rw [hctime d (mem_aliasRows.mp hd).1] at hlim
      simp [timeLimit] at hlim
    have hnil : (deletedLast.aliasRows name).filter deletedLast.inSnapshot = [] :=
      filter_eq_nil_iff.mpr fun _ _ => Bool.false_ne_true
    rintro - ⟨z, hz, -⟩
    rw [hnil] at hz
    cases hz
  obtain ⟨b', out, hok⟩ := deletedLast.purgeDeleted_isOk (fun _ => 0) (fun _ => 0)
    (show (0 : Int) ≤ 5 by decide) 10
  exact ⟨hprot, b', out, hok, (purgeDeleted_protects_iff deletedLast 5 10 (by decide)).mpr
    (fun name _ => hcond name) _ _ b' out hok _ hprot⟩

/-- version 3 が生きているのに、時刻 0 に削除された version 1 が選ばれ、すべてが消える -/
theorem purgeDeleted_deletedFirst : deletedFirst.Protected 100 10 (ascii "a") ∧
    ∃ b' out, deletedFirst.purgeDeletedAliases (fun _ => 0) (fun _ => 0) 100 10 = .ok (b', out) ∧
      b'.aliases.rows = [] ∧ ¬ deletedFirst.SameRows b' (ascii "a") := by
  have hlatest : deletedFirst.latestRow (ascii "a") =
      some ⟨ascii "a", 3, 3, ascii "x", [], 0, false⟩ := by decide +kernel
  have hrows : (deletedFirst.purgeDeletedAliases (fun _ => 0) (fun _ => 0) 100 10).toOption.map
      (·.1.aliases.rows) = some [] := by decide +kernel
  refine ⟨⟨_, hlatest, .inl rfl⟩, ?_⟩
  obtain ⟨b', out, hok⟩ := deletedFirst.purgeDeleted_isOk (fun _ => 0) (fun _ => 0)
    (show (0 : Int) ≤ 100 by decide) 10
  rw [hok] at hrows
  have hnil : b'.aliases.rows = [] := Option.some.inj hrows
  refine ⟨b', out, hok, hnil, fun hsame => ?_⟩
  have hmem := (hsame _ rfl).mpr (latestRow_mem hlatest).1
  rw [hnil] at hmem
  cases hmem

end Base

end Redcurrant.Meta2
