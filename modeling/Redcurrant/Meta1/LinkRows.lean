import Redcurrant.Infra.Joined
import Redcurrant.Infra.Run
import Redcurrant.Meta1.Linked

/-!
# 割り当てで書かれる行

新しい service を選んだ要求は REPLACE なら行をただ 1 行にし、そうでなければ番号の大きい 1 行を加える（`LinkDone`）。
-/

namespace Redcurrant.Meta1

open Infra Metautils List Except ServiceRow RowTable

structure WfPool extends Lb where
  wf : ∀ s ∈ services, s.addr.Wf

/-! ## 正しさ -/

structure LinkDone (t t' : ServiceTable) (cid : Bytes) (ct : CompoundType) (policy : UpdatePolicy)
    (dryrun : Bool) (u : ServiceUrl) (l : List ServiceInfo) : Prop where
  expand : ∀ host, host ∈ (expandUrl u).map (·.host) ↔ host ∈ l.map fun s => addrText s.addr
  dry : dryrun = true → t' = t
  stored : dryrun = false → ∃ row, row.url = u.host ∧
    if policy = .replace then rowsOf t' cid ct.type = [row]
    else rowsOf t' cid ct.type = rowsOf t cid ct.type ++ [row] ∧
      ∀ r ∈ rowsOf t cid ct.type, r.seq < row.seq

/-- **どの pool と iterator でも、成功した要求は正しい。** -/
def LinkSound (t : ServiceTable) (cid : Bytes) (ct : CompoundType)
    (fnmatch : Option Bytes → Bytes → Bool) (policy : UpdatePolicy) (replicas : Nat)
    (dryrun : Bool) (pool : WfPool) : Prop :=
  ∀ (env : Env) (lb : Lb) (it it₁ it' : LbIterator) (u : ServiceUrl) (t' : ServiceTable)
    (l : List ServiceInfo), env.fnmatch = fnmatch → lb.services = pool.services →
    pollAnswer env lb it replicas ct (getContainerAllServices t cid ct.type) = some (some l, it₁) →
    linkNew env lb it t cid ct policy replicas dryrun = some (.ok u, t', it') →
    LinkDone t t' cid ct policy dryrun u l

/-- 次の番号がどの番号よりも大きくなる余りがある。負の大きな番号は `int` では最大に見えることがある。 -/
def SeqRoom (rows : List ServiceRow) : Prop :=
  ∀ r ∈ rows, r.seq < 2147483647 ∧ (toInt32 r.seq = 2147483647 → ∀ r' ∈ rows, r'.seq < -2147483648)

/-! ## 番号 -/

theorem toInt32_of_bounds {z : Int} (h : -2147483648 ≤ z ∧ z < 2147483648) : toInt32 z = z := by
  rw [toInt32, Int.bmod_eq_of_le] <;> omega

theorem toInt32_toGuint {z : Int} (h : -2147483648 ≤ z ∧ z < 2147483648) :
    toInt32 (toGuint z) = z := by
  have hmod : toInt32 (toGuint z) = toInt32 z := by
    exact Int.emod_bmod z (2 ^ 32)
  rw [hmod, toInt32_of_bounds h]

theorem urlvGetMaxSeq_spec : ∀ (uv : List ServiceUrl) (m : Int),
    (∀ u ∈ uv, -2147483648 ≤ u.seq ∧ u.seq < 2147483648) →
    -2147483648 ≤ m → m < 2147483648 →
    (∀ u ∈ uv, u.seq ≤ uv.foldl (fun seq u => if seq < u.seq then toInt32 u.seq else seq) m) ∧
    m ≤ uv.foldl (fun seq u => if seq < u.seq then toInt32 u.seq else seq) m ∧
    (uv.foldl (fun seq u => if seq < u.seq then toInt32 u.seq else seq) m = m ∨
      ∃ u ∈ uv, uv.foldl (fun seq u => if seq < u.seq then toInt32 u.seq else seq) m = u.seq)
  | [], m, _, _, _ => ⟨by simp, le_refl m, .inl rfl⟩
  | u :: uv, m, hb, hlo, hhi => by
    have hu := hb u mem_cons_self
    have hread := toInt32_of_bounds hu
    rw [foldl_cons]
    have hrest : ∀ u ∈ uv, -2147483648 ≤ u.seq ∧ u.seq < 2147483648 :=
      fun x hx => hb x (mem_cons_of_mem _ hx)
    by_cases hlt : m < u.seq
    · rw [if_pos hlt, hread]
      obtain ⟨hall, hge, hor⟩ := urlvGetMaxSeq_spec uv u.seq hrest hu.1 hu.2
      refine ⟨forall_mem_cons.mpr ⟨hge, hall⟩, by omega, .inr ?_⟩
      rcases hor with hor | ⟨x, hx, hor⟩
      · exact ⟨u, mem_cons_self, hor⟩
      · exact ⟨x, mem_cons_of_mem _ hx, hor⟩
    rw [if_neg hlt]
    obtain ⟨hall, hge, hor⟩ := urlvGetMaxSeq_spec uv m hrest hlo hhi
    refine ⟨forall_mem_cons.mpr ⟨by omega, hall⟩, hge, ?_⟩
    rcases hor with hor | ⟨x, hx, hor⟩
    · exact .inl hor
    · exact .inr ⟨x, mem_cons_of_mem _ hx, hor⟩

/-- **書かれる番号がどの行の番号よりも大きいのは番号に余りがあるとき。** -/
theorem nextSeq_gt_iff (rows : List ServiceRow) :
    (∀ r ∈ rows, r.seq < toInt32 (nextSeq (rows.map ServiceRow.read))) ↔ SeqRoom rows := by
  have hread : ∀ u ∈ rows.map ServiceRow.read, -2147483648 ≤ u.seq ∧ u.seq < 2147483648 := by
    intro u hu
    obtain ⟨r, -, rfl⟩ := mem_map.mp hu
    have := toInt32_bounds r.seq
    simp only [ServiceRow.read]
    omega
  obtain ⟨hmax, hlo, hor⟩ := urlvGetMaxSeq_spec _ _ hread (le_refl _) (by decide)
  change (∀ u ∈ rows.map ServiceRow.read, u.seq ≤ urlvGetMaxSeq (rows.map ServiceRow.read)) at hmax
  change -2147483648 ≤ urlvGetMaxSeq (rows.map ServiceRow.read) at hlo
  change urlvGetMaxSeq (rows.map ServiceRow.read) = -2147483648 ∨
    ∃ u ∈ rows.map ServiceRow.read, urlvGetMaxSeq (rows.map ServiceRow.read) = u.seq at hor
  generalize hm : urlvGetMaxSeq (rows.map ServiceRow.read) = m at hmax hlo hor
  have hhi : m < 2147483648 := by
    rcases hor with hor | ⟨u, hu, hor⟩
    · omega
    · have := hread u hu
      omega
  have hmax' : ∀ r ∈ rows, toInt32 r.seq ≤ m := fun r hr => hmax _ (mem_map_of_mem hr)
  have hwrap : toInt32 (2147483647 + 1) = -2147483648 := by decide
  have hnext : toInt32 (nextSeq (rows.map ServiceRow.read)) =
      if m < 0 then 1 else if m = 2147483647 then -2147483648 else m + 1 := by
    rw [nextSeq, hm]
    split
    · exact toInt32_toGuint (by omega)
    split
    · rename_i he
      rw [he]
      exact toInt32_toGuint (by omega)
    · rw [toInt32_of_bounds (z := m + 1) (by omega)]
      exact toInt32_toGuint (by omega)
  rw [hnext]
  constructor
  · intro h r hr
    refine ⟨?_, fun he r' hr' => ?_⟩
    · have hlt := h r hr
      split at hlt
      · omega
      · split at hlt <;> omega
    have hmr := hmax' r hr
    have hlt := h r' hr'
    rwa [if_neg (by omega), if_pos (by omega)] at hlt
  · intro h r hr
    have hsmall := (h r hr).1
    have hmr := hmax' r hr
    -- 0 以上の番号は切り詰めずに読まれる
    have hexact : 0 ≤ r.seq → r.seq ≤ m := by
      intro h0
      rwa [toInt32_of_bounds (by omega)] at hmr
    split
    · omega
    split
    · rename_i he
      rcases hor with hor | ⟨u, hu, hor⟩
      · omega
      · obtain ⟨r0, hr0, rfl⟩ := mem_map.mp hu
        exact (h r0 hr0).2 (by rw [← he, hor]; rfl) r hr
    · omega

/-! ## host -/

variable {u : ServiceUrl} {t t' : ServiceTable} {cid srvtype : Bytes}

theorem hosts_expandUrl (h : u.host.length ≤ 255) :
    (expandUrl u).map (·.host) = splitHost u.host := by
  rw [expandUrl, map_map]
  refine (map_congr_left fun part hpart => ?_).trans (map_id' _)
  refine take_of_length_le (Nat.le_trans ?_ h)
  rw [splitHost] at hpart
  split at hpart
  · cases hpart
  · exact length_le_of_mem_splitOn hpart

theorem host_pollUrl (ct : CompoundType) (seq : Int) (l : List ServiceInfo) :
    (pollUrl ct seq l).host = cutJoin 44 37 255 (l.map fun s => addrText s.addr) := by
  simp only [pollUrl, compoundUrl, strlcpy, cutJoin, map_map]
  rfl

section

variable {l : List ServiceInfo}

theorem nodup_addrText (hwf : ∀ s ∈ l, s.addr.Wf)
    (hdistinct : l.Pairwise fun s s' => s.addr.key ≠ s'.addr.key) :
    (l.map fun s => addrText s.addr).Nodup := by
  refine pairwise_map.mpr ?_
  refine hdistinct.imp_of_mem fun hs hs' hne heq => hne ?_
  exact key_eq_of_addrText_eq (hwf _ hs) (hwf _ hs') heq

theorem comma_free (l : List ServiceInfo) : ∀ x ∈ l.map fun s => addrText s.addr, (44 : UInt8) ∉ x := by
  intro x hx
  obtain ⟨s, -, rfl⟩ := mem_map.mp hx
  exact comma_notMem_addrText s.addr

theorem splitHost_cutJoin (hne : l ≠ []) (h : Fits 44 37 255 (l.map fun s => addrText s.addr)) :
    splitHost (cutJoin 44 37 255 (l.map fun s => addrText s.addr)) =
      l.map fun s => addrText s.addr := by
  have hsplit := splitOn_cutJoin (comma_free l) (by simpa using hne) h
  rw [splitHost]
  split
  · -- 空の host は空の文字列に分かれるが、番地は空でない
    rename_i hempty
    rw [isEmpty_iff.mp hempty] at hsplit
    obtain ⟨s, hs⟩ := exists_mem_of_ne_nil _ hne
    have hmem : addrText s.addr ∈ ([] : Bytes).splitOn 44 := hsplit ▸ mem_map_of_mem hs
    exact absurd (by simpa using hmem) (addrText_ne_nil s.addr)
  · exact hsplit

/-- **host を分けて選んだ service の組に戻るのは番地の文字列が欄に収まるとき。** -/
theorem expand_pollUrl_iff (ct : CompoundType) (seq : Int) (hne : l ≠ [])
    (hnodup : (l.map fun s => addrText s.addr).Nodup) :
    (∀ host, host ∈ (expandUrl (pollUrl ct seq l)).map (·.host) ↔
      host ∈ l.map fun s => addrText s.addr) ↔
    Fits 44 37 255 (l.map fun s => addrText s.addr) := by
  have hne' : (l.map fun s => addrText s.addr) ≠ [] := by simpa using hne
  have hlen : (pollUrl ct seq l).host.length ≤ 255 := by
    rw [host_pollUrl, cutJoin, length_take]
    exact Nat.min_le_left _ _
  rw [hosts_expandUrl hlen, host_pollUrl]
  constructor
  · intro h
    refine (mem_splitOn_cutJoin_iff (comma_free l) hne' hnodup).mp ?_
    rw [splitHost] at h
    split at h
    · obtain ⟨x, hx⟩ := exists_mem_of_ne_nil _ hne'
      exact absurd ((h x).mpr hx) not_mem_nil
    · exact h
  · intro h host
    rw [splitHost_cutJoin hne h]

end

/-! ## 行 -/

def linkRow (cid : Bytes) (u : ServiceUrl) : ServiceRow :=
  ⟨cid, u.srvtype, toInt32 u.seq, u.host, u.args⟩

def linkTable (t : ServiceTable) (cid : Bytes) (ct : CompoundType) (policy : UpdatePolicy)
    (u : ServiceUrl) : ServiceTable :=
  saveService (if policy = .replace then deleteService t cid ct.type else t) cid u

theorem rowsOf_deleteService (t : ServiceTable) (cid srvtype : Bytes) :
    rowsOf (deleteService t cid srvtype) cid srvtype = [] := by
  simp [rowsOf, deleteService]

theorem rowsOf_saveService_of_ne (h : u.srvtype ≠ srvtype) :
    rowsOf (saveService t cid u) cid srvtype = rowsOf t cid srvtype := by
  have hnew : isOf cid srvtype (linkRow cid u) = false := by
    simp [isOf, linkRow, h]
  change (t.replaceInto (linkRow cid u)).rows.filter (isOf cid srvtype) =
    t.rows.filter (isOf cid srvtype)
  rw [replaceInto, filter_append, filter_singleton, hnew, cond_false,
    append_nil, erase, delete, filter_filter]
  refine filter_congr fun r _ => ?_
  by_cases hr : isOf cid srvtype r = true
  · have hclash : ¬ Clash key (linkRow cid u) r := by
      intro hc
      simp only [Clash, key, Option.some.injEq, Prod.mk.injEq] at hc
      simp only [isOf, Bool.and_eq_true, beq_iff_eq] at hr
      exact h (hc.2.2.1.trans hr.2)
    simp [hclash]
  · simp [hr]

theorem rowsOf_saveService (h : u.srvtype = srvtype) : rowsOf (saveService t cid u) cid srvtype =
    (rowsOf t cid srvtype).filter (fun r => !decide (Clash key (linkRow cid u) r)) ++
      [linkRow cid u] := by
  have hnew : isOf cid srvtype (linkRow cid u) = true := by
    simp [isOf, linkRow, h]
  change (t.replaceInto (linkRow cid u)).rows.filter (isOf cid srvtype) = _
  rw [replaceInto, filter_append, filter_singleton, hnew, cond_true,
    erase, delete, rowsOf, filter_filter, filter_filter]
  simp only [Bool.and_comm]

theorem filter_clash_eq_self {rows : List ServiceRow} {row : ServiceRow}
    (h : ∀ r ∈ rows, r.seq < row.seq) :
    rows.filter (fun r => !decide (Clash key row r)) = rows := by
  refine filter_eq_self.mpr fun r hr => ?_
  have hclash : ¬ Clash key row r := by
    intro hc
    simp only [Clash, key, Option.some.injEq, Prod.mk.injEq] at hc
    have := h r hr
    omega
  simp [hclash]

theorem srvtype_pollUrl_iff (ct : CompoundType) (seq : Int) (l : List ServiceInfo) :
    (pollUrl ct seq l).srvtype = ct.type ↔ ct.type.length ≤ 31 := by
  simp [pollUrl, strlcpy]

/-- **行が正しく書かれるのは型の名が収まり、番号に余りがあるとき。** -/
theorem stored_iff (t : ServiceTable) (cid : Bytes) (ct : CompoundType) (policy : UpdatePolicy)
    (l : List ServiceInfo) (hu : u = pollUrl ct (nextSeq (getContainerAllServices t cid ct.type)) l) :
    (∃ row, row.url = u.host ∧
      if policy = .replace then rowsOf (linkTable t cid ct policy u) cid ct.type = [row]
      else rowsOf (linkTable t cid ct policy u) cid ct.type = rowsOf t cid ct.type ++ [row] ∧
        ∀ r ∈ rowsOf t cid ct.type, r.seq < row.seq) ↔
    ct.type.length ≤ 31 ∧ (policy ≠ .replace → SeqRoom (rowsOf t cid ct.type)) := by
  have htype := srvtype_pollUrl_iff ct (nextSeq (getContainerAllServices t cid ct.type)) l
  have hseq : (linkRow cid u).seq = toInt32 (nextSeq ((rowsOf t cid ct.type).map read)) := by
    rw [← getContainerAllServices_eq ct.type_ne, hu]
    rfl
  rw [← hu] at htype
  rw [← nextSeq_gt_iff, ← hseq, ← htype, linkTable]
  by_cases hlen : u.srvtype = ct.type
  · rw [rowsOf_saveService hlen]
    by_cases hpol : policy = .replace
    · refine iff_of_true ⟨linkRow cid u, rfl, ?_⟩ ⟨hlen, fun hne => absurd hpol hne⟩
      rw [if_pos hpol, if_pos hpol, rowsOf_deleteService, filter_nil, nil_append]
    simp only [if_neg hpol, hlen, true_and]
    constructor
    · rintro ⟨row, -, hrows, hgt⟩ -
      have hrow := (append_inj' hrows rfl).2
      rw [singleton_inj] at hrow
      rw [hrow]
      exact hgt
    · intro h
      exact ⟨linkRow cid u, rfl, by rw [filter_clash_eq_self (h hpol)], h hpol⟩
  · rw [rowsOf_saveService_of_ne hlen]
    refine iff_of_false ?_ fun h => hlen h.1
    rintro ⟨row, -, h⟩
    by_cases hpol : policy = .replace
    · rw [if_pos hpol, if_pos hpol, rowsOf_deleteService] at h
      cases h
    rw [if_neg hpol, if_neg hpol] at h
    have := congrArg List.length h.1
    simp at this

/-! ## 要求の全体 -/

theorem saveLink_cases {env : Env} {ct : CompoundType} {policy : UpdatePolicy} {e}
    (h : saveLink env t cid ct policy u = (e, t')) :
    (t' = t ∧ e.isSome) ∨ t' = linkTable t cid ct policy u := by
  unfold saveLink at h
  split at h
  · cases h
    exact .inl ⟨rfl, rfl⟩
  simp only at h
  split at h
  · cases h
    exact .inl ⟨rfl, rfl⟩
  split at h
  · cases h
    exact .inr rfl
  · cases h
    exact .inl ⟨rfl, rfl⟩
  · cases h
    exact .inr rfl

section

variable {env : Env} {lb : Lb} {it it₁ it' : LbIterator} {t t' : ServiceTable} {cid : Bytes}
  {ct : CompoundType} {policy : UpdatePolicy} {replicas : Nat} {dryrun : Bool} {u : ServiceUrl}
  {l : List ServiceInfo}

theorem linkNew_eq_ok
    (hpoll : pollAnswer env lb it replicas ct (getContainerAllServices t cid ct.type) =
      some (some l, it₁))
    (h : linkNew env lb it t cid ct policy replicas dryrun = some (.ok u, t', it')) :
    u = pollUrl ct (nextSeq (getContainerAllServices t cid ct.type)) l ∧
      t' = if dryrun then t else linkTable t cid ct policy u := by
  rw [linkNew, hpoll, Option.map_some, Option.some.injEq] at h
  cases dryrun with
  | true =>
    simp only [if_true, Prod.mk.injEq, ok.injEq] at h
    exact ⟨h.1.symm, h.2.1.symm⟩
  | false =>
    simp only [Bool.false_eq_true, if_false] at h
    split at h
    · simp at h
    rename_i t1 hsave
    simp only [Prod.mk.injEq, ok.injEq] at h
    rw [← h.1, ← h.2.1]
    exact ⟨rfl, (saveLink_cases hsave).resolve_left fun h => by cases h.2⟩

theorem linkNew_of_quiet (hbegin : env.beginError = none) (hdelete : env.deleteError = none)
    (hsave : env.saveError = none) (hcommit : env.commit = .done)
    (hpoll : pollAnswer env lb it replicas ct (getContainerAllServices t cid ct.type) =
      some (some l, it₁)) :
    ∃ u t', linkNew env lb it t cid ct policy replicas dryrun = some (.ok u, t', unshare it₁) := by
  rw [linkNew, hpoll]
  cases dryrun with
  | true => exact ⟨_, _, rfl⟩
  | false =>
    simp only [Bool.false_eq_true, if_false, saveLink, hbegin, hdelete, hsave, hcommit, ite_self,
      Option.or_none]
    exact ⟨_, _, rfl⟩

end

theorem linkDone_iff {ct : CompoundType} {policy : UpdatePolicy} {dryrun : Bool}
    {l : List ServiceInfo} (hne : l ≠ []) (hnodup : (l.map fun s => addrText s.addr).Nodup)
    (hu : u = pollUrl ct (nextSeq (getContainerAllServices t cid ct.type)) l)
    (ht : t' = if dryrun then t else linkTable t cid ct policy u) :
    LinkDone t t' cid ct policy dryrun u l ↔ Fits 44 37 255 (l.map fun s => addrText s.addr) ∧
      (dryrun = false → ct.type.length ≤ 31 ∧
        (policy ≠ .replace → SeqRoom (rowsOf t cid ct.type))) := by
  have hexpand := expand_pollUrl_iff ct (nextSeq (getContainerAllServices t cid ct.type)) hne hnodup
  have hstored := stored_iff t cid ct policy l hu
  rw [← hu] at hexpand
  constructor
  · intro h
    refine ⟨hexpand.mp h.expand, fun hdry => hstored.mp ?_⟩
    have := h.stored hdry
    rwa [ht, hdry] at this
  · rintro ⟨hfits, hroom⟩
    refine ⟨hexpand.mpr hfits, fun hdry => ?_, fun hdry => ?_⟩
    · rw [ht, hdry]
      rfl
    · rw [ht, hdry]
      exact hstored.mpr (hroom hdry)

/-- **割り当ての要求が正しいのは、選ばれうるどの組でも番地の文字列が host の欄に、型の名が型の欄に収まり、番号に
余りがあるとき。** -/
theorem link_iff (t : ServiceTable) (cid : Bytes) (ct : CompoundType)
    (fnmatch : Option Bytes → Bytes → Bool) (policy : UpdatePolicy) (replicas : Nat)
    (dryrun : Bool) (pool : WfPool) :
    LinkSound t cid ct fnmatch policy replicas dryrun pool ↔
      ∀ (errno : Nat → Bool) (l : List ServiceInfo), l ≠ [] →
        Admissible pool.services (pollRequest pool.services errno fnmatch replicas ct
          (getContainerAllServices t cid ct.type)) l →
        Fits 44 37 255 (l.map fun s => addrText s.addr) ∧
        (dryrun = false → ct.type.length ≤ 31 ∧
          (policy ≠ .replace → SeqRoom (rowsOf t cid ct.type))) := by
  constructor
  · intro h errno l hne hadm
    have hpos : 0 < replicas := by
      have hlen : l.length = replicas := hadm.length_eq
      exact hlen ▸ length_pos_iff.mpr hne
    obtain ⟨draws, l', hl', hperm⟩ := nextSet2_reaches pool.toLb rfl rfl rfl hpos hadm
    let env : Env := ⟨draws, errno, fun _ _ => true, fnmatch, none, none, none, none, .done⟩
    have hpoll : pollAnswer env pool.full .rand replicas ct
        (getContainerAllServices t cid ct.type) = some (some l', .shared .rand) := hl'
    obtain ⟨u, t', hlink⟩ : ∃ u t', linkNew env pool.full .rand t cid ct policy replicas dryrun =
        some (.ok u, t', unshare (.shared .rand)) := linkNew_of_quiet rfl rfl rfl rfl hpoll
    have hdone := h env pool.full .rand _ _ u t' l' rfl rfl hpoll hlink
    obtain ⟨hu, ht⟩ := linkNew_eq_ok hpoll hlink
    have hne' : l' ≠ [] := fun he => hne (nil_perm.mp (he ▸ hperm))
    have htexts := hperm.map fun s => addrText s.addr
    have hnodup := nodup_addrText (fun s hs => pool.wf s (hadm.mem s hs)) hadm.distinct
    obtain ⟨hfits, hroom⟩ := (linkDone_iff hne' (htexts.nodup_iff.mpr hnodup) hu ht).mp hdone
    exact ⟨hfits.perm htexts.symm, hroom⟩
  · rintro h env lb it it₁ it' u t' l rfl hservices hpoll hlink
    have hadm := Admissible.of_nextSet2 rfl hpoll
    rw [hservices] at hadm
    have hne : l ≠ [] := ne_nil_of_nextSet2 hpoll
    obtain ⟨hu, ht⟩ := linkNew_eq_ok hpoll hlink
    have hnodup := nodup_addrText (fun s hs => pool.wf s (hadm.mem s hs)) hadm.distinct
    exact (linkDone_iff hne hnodup hu ht).mpr (h env.errnoUsed l hne hadm)

/-! ## 反例 -/

/-- IPv6 の番地の長い service -/
def longService (port : Nat) : ServiceInfo :=
  ⟨ascii "NS", ascii "meta2",
    ⟨.v6, [0x20, 0x01, 0x0d, 0xb8, 0x11, 0x11, 0x22, 0x22, 0x33, 0x33, 0x44, 0x44, 0x55, 0x55,
      0x66, 0x66], port, 0⟩, 50, []⟩

def longPool : WfPool where
  services := [longService 6001]
  sizeMax := 1
  version := 1
  resetDelay := 0
  scored := by decide
  length_lt := by decide
  sizeMax_le := by decide
  sizeMax_pos := by decide
  wf := by decide

/-- **反例。** `[2001:db8:1111:2222:3333:4444:5555:6666]:6001` は 37 文字に切り詰められる。 -/
theorem long_addr_cut :
    (linkNew quietEnv longPool.toLb (.rr 0 0) RowTable.empty [1] meta2Type .none 1 false).map
        (fun r => (r.1.toOption.map fun u => (expandUrl u).map (·.host), r.2.1.rows.map (·.url))) =
      some (some [ascii "[2001:db8:1111:2222:3333:4444:5555:66"],
        [ascii "[2001:db8:1111:2222:3333:4444:5555:66"]) ∧
    addrText (longService 6001).addr = ascii "[2001:db8:1111:2222:3333:4444:5555:6666]:6001" := by
  exact ⟨by decide +kernel, by decide +kernel⟩

/-! ## 要求の run -/

structure LinkRequest where
  env : Env
  (ns cid srvtype : Bytes)
  (reuse dryrun : Bool)

def linkStep (s : ServiceTable × Meta1Backend) (q : LinkRequest) :
    Option (ServiceTable × Meta1Backend) :=
  (getContainerService q.env s.2 s.1 q.ns q.cid q.srvtype q.reuse q.dryrun).map (·.2)

/-- transaction を開いたままにする COMMIT の失敗が無い -/
def LinkRequest.closes (q : LinkRequest) : Bool :=
  match q.env.commit with
  | .failed _ => false
  | _ => true

/-- 結ばれたものを使う要求で、transaction を閉じ、型の名は欄に収まり、policy は APPEND でも REPLACE でもない -/
def LinkRequest.reuses (s : ServiceTable × Meta1Backend) (q : LinkRequest) : Bool :=
  q.closes && q.reuse && match compoundTypeParse q.srvtype with
    | .error _ => true
    | .ok ct => ct.type.length ≤ 31 && (s.2.policies q.ns).all fun pol =>
        pol.howtoUpdate ct.baretype == .none || pol.howtoUpdate ct.baretype == .notSpecified

variable {t t' : ServiceTable} {cid cid' srvtype : Bytes} {env : Env}

theorem linkNew_table {lb : Lb} {it it' : LbIterator} {ct : CompoundType} {policy : UpdatePolicy}
    {replicas : Nat} {dryrun : Bool} {answer}
    (h : linkNew env lb it t cid ct policy replicas dryrun = some (answer, t', it')) :
    t' = t ∨ ∃ seq l, t' = linkTable t cid ct policy (pollUrl ct seq l) := by
  obtain ⟨⟨siv, it₁⟩, -, hr⟩ := Option.map_eq_some_iff.mp h
  cases siv with
  | none =>
    cases hr
    exact .inl rfl
  | some siv =>
    simp only at hr
    split at hr
    · cases hr
      exact .inl rfl
    split at hr
    all_goals
      rename_i hsave
      cases hr
      exact (saveLink_cases hsave).imp (·.1) fun h => ⟨_, _, h⟩

theorem rowsOf_saveService_other {u : ServiceUrl} (h : ¬ (cid = cid' ∧ u.srvtype = srvtype)) :
    rowsOf (saveService t cid u) cid' srvtype = rowsOf t cid' srvtype := by
  have hrow : ∀ r : ServiceRow, r.cid = cid → r.srvtype = u.srvtype →
      isOf cid' srvtype r = false := by
    rintro r rfl hs
    simpa [isOf, hs] using h
  show (t.replaceInto (linkRow cid u)).rows.filter _ = t.rows.filter _
  rw [RowTable.replaceInto, filter_append, filter_singleton, hrow _ rfl rfl, cond_false, append_nil,
    RowTable.erase, RowTable.delete, filter_filter]
  refine filter_congr fun r _ => ?_
  by_cases hc : Clash ServiceRow.key (linkRow cid u) r
  · simp only [Clash, ServiceRow.key, Option.some.injEq, Prod.mk.injEq] at hc
    simp [hrow r hc.2.1.symm hc.2.2.1.symm]
  · simp [hc]

theorem type_updateArg (ct : CompoundType) (pol : Policies) (override : Bool) :
    (ct.updateArg pol override).type = ct.type := by
  unfold CompoundType.updateArg
  split
  · split <;> rfl
  · rfl

theorem linkStep_rows {s s' : ServiceTable × Meta1Backend} {q : LinkRequest} (hq : q.reuses s)
    (hrows : rowsOf s.1 cid srvtype ≠ []) (h : linkStep s q = some s') :
    rowsOf s'.1 cid srvtype = rowsOf s.1 cid srvtype := by
  obtain ⟨⟨answer, s'⟩, hget, rfl⟩ := Option.map_eq_some_iff.mp h
  unfold getContainerService at hget
  split at hget
  · cases hget
    rfl
  rename_i ct hct
  simp only [LinkRequest.reuses, hct, Bool.and_eq_true, decide_eq_true_eq] at hq
  obtain ⟨⟨-, hreuse⟩, hlen, hpolicy⟩ := hq
  unfold getContainerService2 at hget
  split at hget
  · cases hget
    rfl
  rename_i pol hpol
  simp only at hget
  split at hget
  · cases hget
    rfl
  split at hget
  · cases hget
    rfl
  split at hget
  · cases hget
    rfl
  rename_i hnew
  split at hget
  · cases hget
    rfl
  obtain ⟨⟨answer, t', it'⟩, hlink, hr⟩ := Option.map_eq_some_iff.mp hget
  cases hr
  rcases linkNew_table hlink with rfl | ⟨seq, l, rfl⟩
  · rfl
  rw [hpol, Option.all_some] at hpolicy
  have htype := (srvtype_pollUrl_iff (ct.updateArg pol false) seq l).mpr (by rwa [type_updateArg])
  rw [linkTable, if_neg fun h => by rw [h] at hpolicy; cases hpolicy]
  refine rowsOf_saveService_other ?_
  rintro ⟨rfl, rfl⟩
  -- 行があれば、それが使われている
  refine hnew ?_
  rw [htype] at hrows
  rw [hreuse, getContainerAllServices_eq (ct.updateArg pol false).type_ne]
  simp [hpolicy, hrows]

def pairBackend : Meta1Backend :=
  ⟨ascii "NS", [(ascii "NS", [])], [(ascii "meta2", pairPool, .rr 0 0)]⟩

def linkSecond : LinkRequest := ⟨quietEnv, ascii "NS", [2], ascii "meta2", true, false⟩

/-- **結ばれたものを使う要求をどう続けても、reference の行は一度できれば変わらない。** -/
theorem linked_rows_stay {s₀ s : ServiceTable × Meta1Backend}
    (h : Reach linkStep (fun s q => q.reuses s) s₀ s) (hrows : rowsOf s₀.1 cid srvtype ≠ []) :
    rowsOf s.1 cid srvtype = rowsOf s₀.1 cid srvtype :=
  h.invariant (I := fun s => rowsOf s.1 cid srvtype = rowsOf s₀.1 cid srvtype) rfl
    fun hs hq hstep => (linkStep_rows hq (hs ▸ hrows) hstep).trans hs

/-- 2 つ目の reference を結んでも、1 つ目の行は変わらない -/
theorem linked_rows_stay_pair : ∃ s, linkStep (pairTable, pairBackend) linkSecond = some s ∧
    (rowsOf s.1 [2] (ascii "meta2")).length = 1 ∧
    rowsOf s.1 [1] (ascii "meta2") = rowsOf pairTable [1] (ascii "meta2") := by
  obtain ⟨s, hs, hsecond⟩ := Option.map_eq_some_iff.mp (show (linkStep (pairTable, pairBackend)
    linkSecond).map (fun s => (rowsOf s.1 [2] (ascii "meta2")).length) = some 1 by decide +kernel)
  exact ⟨s, hs, hsecond, linked_rows_stay (.tail .refl (by decide +kernel) hs) (by decide +kernel)⟩

end Redcurrant.Meta1
