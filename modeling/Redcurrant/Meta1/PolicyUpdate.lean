import Redcurrant.Meta1.LinkRows

/-!
# policy に合わせた行の書き直し

`_update_m1_policy`。service が足りないか除くべき行の host を、足りない分を選んで組み立て直す。
-/

namespace Redcurrant.Meta1

open Infra Metautils Sqliterepo List

/-! ## 書き直し -/

/-- 除く service。番地は文字列から読んだもの。 -/
structure Excluded where
  text : Bytes
  addr : AddrInfo
  parsed : gridStringToAddrinfo false text = some addr

def containerIdToString (cid : Bytes) : String :=
  String.ofList (cid.flatMap fun b =>
    ["0123456789ABCDEF".toList.getD (b.toNat / 16) '0',
      "0123456789ABCDEF".toList.getD (b.toNat % 16) '0'])

def convertUrlToServiceinfo (errno : Nat → Bool) (u : ServiceUrl) (excludeurl : Option Bytes) :
    List ServiceInfo :=
  (expandUrl u).zipIdx.filterMap fun p =>
    if excludeurl = some p.1.host then none
    else (gridStringToAddrinfo (errno p.2) p.1.host).map fun a =>
      ⟨[], strlcpy p.1.srvtype 32, a, 0, []⟩

def constrainedRequest (replicas reqdist : Nat) (ct : CompoundType)
    (excludeservice : Option AddrInfo) (requestedsrv : List ServiceInfo) : LbOptExt where
  req :=
    { max := replicas - requestedsrv.length
      distance := reqdist
      duplicates := false
      shuffle := false
      stgclass := none
      strictStgclass := true }
  srvInplace := requestedsrv.reverse
  srvForbidden := excludeservice.toList.map fun a => ⟨[], strlcpy ct.baretype 32, a, 0, []⟩
  filter := none

def constrainedUrl (ct : CompoundType) (seq : Int) (siv requestedsrv : List ServiceInfo)
    (svcArgs : Bytes) : ServiceUrl :=
  ⟨toGuint seq, strlcpy ct.type 32,
    strlcpy (compoundUrl ((siv ++ requestedsrv).map (·.addr))) 256, svcArgs⟩

/-- 除く service が行にあるか。文字列で比べる。 -/
def excludesrvfound (u : ServiceUrl) (exclude : Option Excluded) : Bool :=
  (expandUrl u).any fun p => exclude.map (·.text) == some p.host

/-- `_update_m1_policy`。落ちれば `none`、そうでなければ答えと pool。書き直さないときの答えは `.ok none`。 -/
def updateM1Policy (draws : Nat → Draw) (errno : Nat → Bool) (m1 : Meta1Backend) (cid : Bytes)
    (u : ServiceUrl) (ct : CompoundType) (replica reqdist : Nat) (exclude : Option Excluded) :
    Option (Except GError (Option ServiceUrl) × Meta1Backend) :=
  let urlCount := (expandUrl u).length
  let found := excludesrvfound u exclude
  if urlCount = 1 ∧ found = true then
    some (.error ⟨481, "FAILED to update reference " ++ containerIdToString cid ++
      ", just one service configured, imposible to replace it"⟩, m1)
  else if replica < urlCount then
    some (.error ⟨481, "Failed to update Reference " ++ containerIdToString cid ++
      ", Number of service " ++ text ct.type ++ " [" ++ toString urlCount ++
      "] greater than replicas [" ++ toString replica ++ "]"⟩, m1)
  else if urlCount = replica ∧ found = false then some (.ok none, m1)
  else
    let requestedsrv := convertUrlToServiceinfo errno u (exclude.map (·.text))
    match m1.getIterator ct.baretype with
    | .error e => some (.error e, m1)
    | .ok (lb, it) =>
      (nextSet2 lb draws (constrainedRequest replica reqdist ct (exclude.map (·.addr))
        requestedsrv) (.shared it)).map fun r =>
          (match r.1 with
            | none => .error ⟨481, "No service available"⟩
            | some siv => .ok (some (constrainedUrl ct u.seq siv requestedsrv u.args)),
          m1.setIterator ct.baretype (unshare r.2))

/-! ## 正しさ -/

def OldService (r : ServiceRow) (a : AddrInfo) : Prop := ∃ part ∈ splitHost r.url, Denotes part a

/-- `q` は行の service の pool での記録 -/
def InRow (services kept l : List ServiceInfo) (q : ServiceInfo) : Prop :=
  q ∈ l ∨ q ∈ services ∧ ∃ k ∈ kept, k.addr.key = q.addr.key

/-- 行 `r` を `kept` を残し `l` を加えて書き直した結果が正しい -/
structure Rewritten (r : ServiceRow) (replica reqdist : Nat) (exclude : Option Excluded)
    (services kept l : List ServiceInfo) (u : ServiceUrl) : Prop where
  count : (splitHost u.host).length = replica
  nodup : (splitHost u.host).Nodup
  origin : ∀ part ∈ splitHost u.host, ∃ s ∈ l ++ kept, part = addrText s.addr
  keeps : ∀ a : AddrInfo, a.Wf → OldService r a → (∀ ex ∈ exclude, a.key ≠ ex.addr.key) →
    addrText a ∈ splitHost u.host
  excludes : ∀ ex ∈ exclude, addrText ex.addr ∉ splitHost u.host
  spaced : ∀ s ∈ l, ¬ OldService r s.addr → ∀ q, InRow services kept l q →
    q.addr.key ≠ s.addr.key → Spaced reqdist s q

def keptServices (errno : Nat → Bool) (r : ServiceRow) (exclude : Option Excluded) :
    List ServiceInfo :=
  convertUrlToServiceinfo errno r.read (exclude.map (·.text))

/-- **どの pool と iterator でも、書き直した行は正しい。** -/
def PolicySound (r : ServiceRow) (ct : CompoundType) (replica reqdist : Nat)
    (exclude : Option Excluded) (pool : WfPool) : Prop :=
  ∀ (draws : Nat → Draw) (errno : Nat → Bool) (m1 m1' : Meta1Backend) (lb : Lb)
    (it it' : LbIterator) (l : List ServiceInfo) (u : ServiceUrl),
    m1.getIterator ct.baretype = .ok (lb, it) → lb.services = pool.services →
    nextSet2 lb draws (constrainedRequest replica reqdist ct (exclude.map (·.addr))
      (keptServices errno r exclude)) (.shared it) = some (some l, it') →
    updateM1Policy draws errno m1 r.cid r.read ct replica reqdist exclude =
      some (.ok (some u), m1') →
    Rewritten r replica reqdist exclude pool.services (keptServices errno r exclude) l u

def MustRewrite (r : ServiceRow) (replica : Nat) (exclude : Option Excluded) : Prop :=
  (expandUrl r.read).length ≤ replica ∧
  (excludesrvfound r.read exclude = true → (expandUrl r.read).length ≠ 1) ∧
  (excludesrvfound r.read exclude = false → (expandUrl r.read).length ≠ replica)

/-- `kept` を残し `l` を加えて、正しく書き直せる -/
structure Rewritable (r : ServiceRow) (reqdist : Nat) (exclude : Option Excluded)
    (services kept l : List ServiceInfo) : Prop where
  covers : ∀ a : AddrInfo, a.Wf → OldService r a → (∀ ex ∈ exclude, a.key ≠ ex.addr.key) →
    ∃ s ∈ l ++ kept, s.addr.key = a.key
  distinct : kept.Pairwise fun a b => a.addr.key ≠ b.addr.key
  excluded : ∀ ex ∈ exclude, ∀ k ∈ kept, k.addr.key ≠ ex.addr.key
  fits : Fits 44 37 255 ((l ++ kept).map fun s => addrText s.addr)
  far : ∀ s ∈ l, ¬ OldService r s.addr → ∀ q ∈ services, ∀ k ∈ kept, k.addr.key = q.addr.key →
    Spaced reqdist s q

/-! ## 残す service -/

section

variable {errno : Nat → Bool} {r : ServiceRow} {exclude : Option Excluded}

theorem wf_of_mem_keptServices {k : ServiceInfo} (h : k ∈ keptServices errno r exclude) :
    k.addr.Wf := by
  obtain ⟨p, -, hp⟩ := mem_filterMap.mp h
  split at hp
  · cases hp
  · obtain ⟨a, ha, rfl⟩ := Option.map_eq_some_iff.mp hp
    exact (wf_of_gridStringToAddrinfo ha).1

variable (errno r exclude) in
theorem length_keptServices_le :
    (keptServices errno r exclude).length ≤ (expandUrl r.read).length := by
  refine (length_filterMap_le _ _).trans ?_
  rw [length_zipIdx]

theorem length_keptServices_lt (h : excludesrvfound r.read exclude = true) :
    (keptServices errno r exclude).length < (expandUrl r.read).length := by
  obtain ⟨p, hp, heq⟩ := any_eq_true.mp h
  obtain ⟨i, hi⟩ := mem_iff_getElem?.mp hp
  have hmem : (p, i) ∈ (expandUrl r.read).zipIdx := mem_zipIdx_iff_getElem?.mpr hi
  rw [← length_zipIdx (l := expandUrl r.read) (i := 0)]
  refine length_filterMap_lt_length_iff_exists.mpr ⟨_, hmem, ?_⟩
  rw [if_pos (beq_iff_eq.mp heq)]

theorem keptServices_lt_replica (errno : Nat → Bool) {replica : Nat} (h : MustRewrite r replica exclude) :
    (keptServices errno r exclude).length < replica := by
  obtain ⟨hle, -, hne⟩ := h
  cases hfound : excludesrvfound r.read exclude with
  | true => exact (length_keptServices_lt hfound).trans_le hle
  | false =>
    have := hne hfound
    have := length_keptServices_le errno r exclude
    omega

end

/-! ## 1 つの組 -/

section

variable {r : ServiceRow} {ct : CompoundType} {replica reqdist : Nat} {exclude : Option Excluded}
  {services kept l : List ServiceInfo}

section

variable
  (h : Admissible services (constrainedRequest replica reqdist ct (exclude.map (·.addr)) kept) l)
include h

theorem apart_of_admissible : ∀ s ∈ l, ∀ k ∈ kept, s.addr.key ≠ k.addr.key := by
  intro s hs k hk
  exact (extOptFilter_iff.mp (h.accepted s hs)).2.1 rfl k (mem_reverse.mpr hk)

theorem allowed_of_admissible : ∀ s ∈ l, ∀ ex ∈ exclude, s.addr.key ≠ ex.addr.key := by
  intro s hs ex hex
  refine (extOptFilter_iff.mp (h.accepted s hs)).1 ⟨[], strlcpy ct.baretype 32, ex.addr, 0, []⟩ ?_
  rw [Option.mem_def.mp hex]
  exact mem_singleton.mpr rfl

end

theorem host_constrainedUrl (ct : CompoundType) (seq : Int) (l kept : List ServiceInfo)
    (args : Bytes) : (constrainedUrl ct seq l kept args).host =
      cutJoin 44 37 255 ((l ++ kept).map fun s => addrText s.addr) := by
  simp only [constrainedUrl, compoundUrl, strlcpy, cutJoin, map_map]
  rfl

theorem mem_texts_iff {l : List ServiceInfo} (hwf : ∀ s ∈ l, s.addr.Wf) {a : AddrInfo}
    (ha : a.Wf) : addrText a ∈ l.map (fun s => addrText s.addr) ↔ ∃ s ∈ l, s.addr.key = a.key := by
  rw [mem_map]
  refine exists_congr fun s => and_congr_right fun hs => ?_
  exact ⟨key_eq_of_addrText_eq (hwf s hs) ha, addrText_eq_of_key_eq⟩

variable {seq : Int} {args : Bytes} (hwf : ∀ s ∈ l ++ kept, s.addr.Wf) (hkept : kept.length < replica)
  (hadm : Admissible services (constrainedRequest replica reqdist ct (exclude.map (·.addr)) kept) l)

include hwf hkept hadm

theorem ne_nil_of_short : l ≠ [] := by
  rintro rfl
  have hlen : 0 = replica - kept.length := hadm.length_eq
  omega

omit hwf in
theorem length_texts : ((l ++ kept).map fun s => addrText s.addr).length = replica := by
  have hlen : l.length = replica - kept.length := hadm.length_eq
  rw [length_map, length_append]
  omega

omit hwf in
/-- 書き直した行が正しければ、分けた host は選んだ service と残す service の番地 -/
theorem Rewritten.perm (h : Rewritten r replica reqdist exclude services kept l
    (constrainedUrl ct seq l kept args)) :
    ((cutJoin 44 37 255 ((l ++ kept).map fun s => addrText s.addr)).splitOn 44).Perm
      ((l ++ kept).map fun s => addrText s.addr) ∧
    splitHost (constrainedUrl ct seq l kept args).host =
      (cutJoin 44 37 255 ((l ++ kept).map fun s => addrText s.addr)).splitOn 44 := by
  have hsplit : splitHost (constrainedUrl ct seq l kept args).host =
      (cutJoin 44 37 255 ((l ++ kept).map fun s => addrText s.addr)).splitOn 44 := by
    have hcount := h.count
    rw [host_constrainedUrl, splitHost] at hcount ⊢
    split at hcount
    · simp only [length_nil] at hcount
      omega
    · rename_i hne
      rw [if_neg hne]
  refine ⟨?_, hsplit⟩
  rw [← hsplit]
  have hsub : (splitHost (constrainedUrl ct seq l kept args).host).Subperm
      ((l ++ kept).map fun s => addrText s.addr) := by
    refine subperm_of_subset h.nodup fun part hpart => ?_
    obtain ⟨s, hs, rfl⟩ := h.origin part hpart
    exact mem_map_of_mem hs
  refine hsub.perm_of_length_le ?_
  rw [h.count, length_texts hkept hadm]

/-- **1 つの組を選んだ書き直しが正しいための条件。** -/
theorem rewritten_iff (hex : ∀ ex ∈ exclude, ex.addr.Wf) :
    Rewritten r replica reqdist exclude services kept l (constrainedUrl ct seq l kept args) ↔
      Rewritable r reqdist exclude services kept l := by
  have hne : l ++ kept ≠ [] := by simp [ne_nil_of_short hwf hkept hadm]
  constructor
  · intro h
    obtain ⟨hperm, hsplit⟩ := h.perm hkept hadm
    have hmem : ∀ x, x ∈ splitHost (constrainedUrl ct seq l kept args).host ↔
        x ∈ (l ++ kept).map fun s => addrText s.addr := by
      intro x
      rw [hsplit, hperm.mem_iff]
    have hnodup : ((l ++ kept).map fun s => addrText s.addr).Nodup :=
      hperm.nodup_iff.mp (hsplit ▸ h.nodup)
    constructor
    case covers =>
      intro a ha hold hne
      exact (mem_texts_iff hwf ha).mp ((hmem _).mp (h.keeps a ha hold hne))
    case distinct =>
      refine (pairwise_append.mp (pairwise_map.mp hnodup)).2.1.imp ?_
      exact fun hne heq => hne (addrText_eq_of_key_eq heq)
    case excluded =>
      intro ex hex' k hk heq
      refine h.excludes ex hex' ((hmem _).mpr ?_)
      exact (mem_texts_iff hwf (hex ex hex')).mpr ⟨k, mem_append_right _ hk, heq⟩
    case fits => exact fits_of_perm (by simpa using hne) hperm
    case far =>
      intro s hs hnew q hq k hk heq
      refine h.spaced s hs hnew q (.inr ⟨hq, k, hk, heq⟩) ?_
      rw [← heq]
      exact (apart_of_admissible hadm s hs k hk).symm
  · intro h
    have hhost : splitHost (constrainedUrl ct seq l kept args).host =
        (l ++ kept).map fun s => addrText s.addr := by
      rw [host_constrainedUrl]
      exact splitHost_cutJoin hne h.fits
    constructor
    case count => rw [hhost, length_texts hkept hadm]
    case nodup =>
      rw [hhost]
      refine nodup_addrText hwf ?_
      exact pairwise_append.mpr ⟨hadm.distinct, h.distinct, apart_of_admissible hadm⟩
    case origin =>
      intro part hpart
      rw [hhost] at hpart
      obtain ⟨s, hs, rfl⟩ := mem_map.mp hpart
      exact ⟨s, hs, rfl⟩
    case keeps =>
      intro a ha hold hne
      rw [hhost]
      exact (mem_texts_iff hwf ha).mpr (h.covers a ha hold hne)
    case excludes =>
      intro ex hex' hmem
      rw [hhost] at hmem
      obtain ⟨s, hs, heq⟩ := (mem_texts_iff hwf (hex ex hex')).mp hmem
      rcases mem_append.mp hs with hs | hs
      · exact allowed_of_admissible hadm s hs ex hex' heq
      · exact h.excluded ex hex' s hs heq
    case spaced =>
      rintro s hs hnew q (hq | ⟨hq, k, hk, heq⟩) hne
      · have hspaced : l.Pairwise (Spaced reqdist) := hadm.spaced
        have hsymm : Std.Symm (Spaced reqdist) := ⟨fun _ _ h => h.symm⟩
        exact hspaced.forall hs hq fun he => hne (by rw [he])
      · exact h.far s hs hnew q hq k hk heq

end

/-! ## 書き直しの全体 -/

theorem updateM1Policy_eq_some {draws : Nat → Draw} {errno : Nat → Bool} {m1 m1' : Meta1Backend}
    {r : ServiceRow} {ct : CompoundType} {replica reqdist : Nat} {exclude : Option Excluded}
    {lb : Lb} {it it' : LbIterator} {l : List ServiceInfo} {u : ServiceUrl}
    (hit : m1.getIterator ct.baretype = .ok (lb, it))
    (hpoll : nextSet2 lb draws (constrainedRequest replica reqdist ct (exclude.map (·.addr))
      (keptServices errno r exclude)) (.shared it) = some (some l, it')) :
    updateM1Policy draws errno m1 r.cid r.read ct replica reqdist exclude =
        some (.ok (some u), m1') ↔
      MustRewrite r replica exclude ∧
      u = constrainedUrl ct r.read.seq l (keptServices errno r exclude) r.read.args ∧
      m1' = m1.setIterator ct.baretype (unshare it') := by
  simp only [updateM1Policy, MustRewrite]
  by_cases hone : (expandUrl r.read).length = 1 ∧ excludesrvfound r.read exclude = true
  · rw [if_pos hone]
    refine iff_of_false (by simp) fun h => h.1.2.1 hone.2 hone.1
  rw [if_neg hone]
  by_cases hmany : replica < (expandUrl r.read).length
  · rw [if_pos hmany]
    exact iff_of_false (by simp) fun h => absurd h.1.1 (by omega)
  rw [if_neg hmany]
  by_cases hsame : (expandUrl r.read).length = replica ∧ excludesrvfound r.read exclude = false
  · rw [if_pos hsame]
    exact iff_of_false (by simp) fun h => h.1.2.2 hsame.2 hsame.1
  rw [if_neg hsame, hit]
  have hcalls : MustRewrite r replica exclude :=
    ⟨by omega, fun hf he => hone ⟨he, hf⟩, fun hf he => hsame ⟨he, hf⟩⟩
  change (nextSet2 lb draws (constrainedRequest replica reqdist ct (exclude.map (·.addr))
    (keptServices errno r exclude)) (.shared it)).map _ = _ ↔ _
  rw [hpoll]
  simp only [Option.map_some, Option.some.injEq, Prod.mk.injEq, Except.ok.injEq]
  constructor
  · rintro ⟨rfl, rfl⟩
    exact ⟨hcalls, rfl, rfl⟩
  · rintro ⟨-, rfl, rfl⟩
    exact ⟨rfl, rfl⟩

theorem Rewritable.perm {r : ServiceRow} {reqdist : Nat} {exclude : Option Excluded}
    {services kept l l' : List ServiceInfo} (h : Rewritable r reqdist exclude services kept l)
    (hperm : l'.Perm l) : Rewritable r reqdist exclude services kept l' := by
  have happ : (l' ++ kept).Perm (l ++ kept) := hperm.append_right kept
  refine ⟨fun a ha hold hne => ?_, h.distinct, h.excluded, h.fits.perm (happ.map _), ?_⟩
  · obtain ⟨s, hs, heq⟩ := h.covers a ha hold hne
    exact ⟨s, happ.mem_iff.mpr hs, heq⟩
  · intro s hs
    exact h.far s (hperm.mem_iff.mp hs)

/-- **書き直した行が正しいのは、選ばれうるどの組でも正しく書き直せるとき。** -/
theorem policy_iff (r : ServiceRow) (ct : CompoundType) (replica reqdist : Nat)
    (exclude : Option Excluded) (pool : WfPool) :
    PolicySound r ct replica reqdist exclude pool ↔
      (MustRewrite r replica exclude → ∀ (errno : Nat → Bool) (l : List ServiceInfo),
        Admissible pool.services (constrainedRequest replica reqdist ct (exclude.map (·.addr))
          (keptServices errno r exclude)) l →
        Rewritable r reqdist exclude pool.services (keptServices errno r exclude) l) := by
  have hex : ∀ ex ∈ exclude, ex.addr.Wf := fun ex _ => (wf_of_gridStringToAddrinfo ex.parsed).1
  have hwf : ∀ {errno l}, Admissible pool.services (constrainedRequest replica reqdist ct
      (exclude.map (·.addr)) (keptServices errno r exclude)) l →
      ∀ s ∈ l ++ keptServices errno r exclude, s.addr.Wf := by
    intro errno l hadm s hs
    rcases mem_append.mp hs with hs | hs
    · exact pool.wf s (hadm.mem s hs)
    · exact wf_of_mem_keptServices hs
  constructor
  · intro h hmust errno l hadm
    have hkept := keptServices_lt_replica errno hmust
    obtain ⟨draws, l', hpoll, hperm⟩ := nextSet2_reaches pool.toLb rfl rfl rfl
      (Nat.sub_pos_of_lt hkept) hadm
    let m1 : Meta1Backend := ⟨[], [], [(ct.baretype, pool.full, .rand)]⟩
    have hit : m1.getIterator ct.baretype = .ok (pool.full, .rand) := by
      simp [m1, Meta1Backend.getIterator]
    have hrun := (updateM1Policy_eq_some hit hpoll).mpr ⟨hmust, rfl, rfl⟩
    have hdone := h draws errno m1 _ _ _ _ l' _ hit rfl hpoll hrun
    have hadm' := Admissible.of_nextSet2 rfl hpoll
    exact ((rewritten_iff (hwf hadm') hkept hadm' hex).mp hdone).perm hperm.symm
  · intro h draws errno m1 m1' lb it it' l u hit hservices hpoll hrun
    obtain ⟨hmust, rfl, -⟩ := (updateM1Policy_eq_some hit hpoll).mp hrun
    have hadm := Admissible.of_nextSet2 rfl hpoll
    rw [hservices] at hadm
    exact (rewritten_iff (hwf hadm) (keptServices_lt_replica errno hmust) hadm hex).mpr
      (h hmust errno l hadm)

/-! ## 反例 -/

def roomService (port : Nat) : ServiceInfo :=
  { localService port with tags := [⟨ascii "tag.loc", .text (ascii "room.rack")⟩] }

def roomPool : WfPool where
  services := [roomService 6001, roomService 6002]
  sizeMax := 2
  version := 1
  resetDelay := 0
  scored := by decide
  length_lt := by decide
  sizeMax_le := by decide
  sizeMax_pos := by decide
  wf := by decide

def roomRow : ServiceRow := ⟨[1], ascii "meta2", 1, ascii "127.0.0.1:6001", []⟩

/-- **反例。** 2 つの複製を距離 1 で求めても、同じ location の service が加わる。 -/
theorem same_room : (updateM1Policy (fun _ => ⟨0, 0, 0, 0⟩) (fun _ => false)
        ⟨[], [], [(ascii "meta2", roomPool.toLb, .rr 0 0)]⟩ roomRow.cid roomRow.read meta2Type 2 1
        none).map (fun r => r.1.toOption.map fun u => u.map (·.host)) =
      some (some (some (ascii "127.0.0.1:6002,127.0.0.1:6001"))) ∧
    ¬ Spaced 1 (roomService 6002) (roomService 6001) := by
  refine ⟨by decide +kernel, fun h => ?_⟩
  exact absurd (h (ascii "room.rack") (ascii "room.rack") (by decide) (by decide)) (by decide)

end Redcurrant.Meta1
