import Mathlib.Data.List.Permutation
import Mathlib.Data.Prod.Lex
import Redcurrant.Meta2.Listing

/-!
# page ごとの一覧

最後の名前を marker にして空の page まで続ければ、生きている名前が 1 度ずつ順に返るはずである。
-/

namespace Redcurrant.Meta2

open Infra Sqliterepo List

namespace Base

variable (b : Base)

/-! ## 一覧とその条件 -/

/-- 空の page まで続けた一覧 -/
inductive Lists (scan : Scan) (k : Nat) (headers : Bool) : Option Bytes → List Alias → Prop
  | stop {marker : Option Bytes} {out : List Bean} :
      b.listAliases scan (pageParams k headers marker) = .ok out → aliasesIn out = [] →
      Lists scan k headers marker []
  | more {marker : Option Bytes} {out : List Bean} {last : Alias} {rest : List Alias} :
      b.listAliases scan (pageParams k headers marker) = .ok out →
      (aliasesIn out).getLast? = some last → Lists scan k headers (some last.alias) rest →
      Lists scan k headers marker (aliasesIn out ++ rest)

def Live (name : Bytes) : Prop := ∃ r, b.latestRow name = some r ∧ r.deleted = false

/-- 生きている名前の最新の行を名前の順に並べた列 -/
def liveRows : List Alias := (orderBy (fun a => nameKey a.alias) b.latestRows).filter (!·.deleted)

/-- 一覧がどの大きさの page でも正しいための条件 -/
structure CleanListing : Prop where
  /-- 生きている名前の行は 1 つで、ほかには印がある -/
  single : ∀ r ∈ b.aliases.rows, r.deleted = false ∨ b.Live r.alias → b.latestRow r.alias = some r
  /-- 生きている名前を貼り付けた literal は壊れず、その値の後の名前は元の名前の後のものと同じ -/
  markers : ∀ n, b.Live n → ∃ v, literalValue n = some v ∧ ∀ x, b.Live x → (NameLt v x ↔ NameLt n x)
  /-- どの marker の後でも、生きている名前が印のある行より先に来る -/
  dead : ∀ marker bound, (∀ n ∈ marker, b.Live n) → literal? marker = some bound →
    ∀ r ∈ b.aliases.rows, r.deleted = true → After bound r.alias →
      (∃ x, b.Live x ∧ After marker x) → ∃ x, b.Live x ∧ After marker x ∧ NameLt x r.alias

section

variable {b} {scan : Scan} {k : Nat} {headers : Bool} {marker bound : Option Bytes}
  {a r : Alias} {out : List Bean} {rest : List Alias}

/-! ## 生きている行 -/

theorem mem_liveRows : a ∈ b.liveRows ↔ b.latestRow a.alias = some a ∧ a.deleted = false := by
  simp [liveRows, mem_latestRows]

theorem pairwise_liveRows (b : Base) : b.liveRows.Pairwise fun a r => NameLt a.alias r.alias := by
  have hnames := pairwise_latestRows b
  have hsub : ∀ a ∈ b.liveRows, a ∈ b.latestRows := by
    intro a ha
    exact mem_latestRows.mpr (mem_liveRows.mp ha).1
  refine pairwise_nameLt ((pairwise_orderBy _ _).filter _) (List.Nodup.filter _ ?_) ?_
  · refine (perm_orderBy _ _).nodup_iff.mpr (hnames.imp ?_)
    intro a r hne he
    exact hne (congrArg Alias.alias he)
  · intro a ha r hr he
    exact eq_of_pairwise_alias hnames (hsub a ha) (hsub r hr) he

theorem live_of_mem_liveRows (ha : a ∈ b.liveRows) : b.Live a.alias :=
  ⟨a, (mem_liveRows.mp ha).1, (mem_liveRows.mp ha).2⟩

theorem Live.row {name : Bytes} (h : b.Live name) : ∃ a ∈ b.liveRows, a.alias = name := by
  obtain ⟨r, hr, hd⟩ := h
  have hn := (latestRow_mem hr).2
  exact ⟨r, mem_liveRows.mpr ⟨hn.symm ▸ hr, hd⟩, hn⟩

def pendingRows (b : Base) (marker : Option Bytes) : List Alias :=
  b.liveRows.filter fun a => After marker a.alias

theorem mem_pendingRows : a ∈ b.pendingRows marker ↔
    (b.latestRow a.alias = some a ∧ a.deleted = false) ∧ After marker a.alias := by
  rw [pendingRows, mem_filter, mem_liveRows, decide_eq_true_eq]

theorem pendingRows_none (b : Base) : b.pendingRows none = b.liveRows :=
  filter_eq_self.mpr fun a _ => by simp [After]

/-! ## 条件から一覧へ -/

theorem runTree_scanned (hs : ∀ r ∈ b.aliases.rows, r.deleted = false ∨ b.Live r.alias →
    b.latestRow r.alias = some r) (scan : Scan) (bound : Option Bytes) (k : Nat) :
    runTree true false ((b.scanned scan bound).take k) =
      ((b.scanned scan bound).take k).filter (!·.deleted) := by
  refine runTree_eq_filter ((sorted_scanned b scan bound).sublist (take_sublist _ _))
    ((nodup_scanned b scan bound).sublist (take_sublist _ _)) fun a ha hd r hr he => ?_
  have hla := hs a (mem_scanned.mp (mem_of_mem_take ha)).1 (.inl hd)
  have hlr := hs r (mem_scanned.mp (mem_of_mem_take hr)).1 (.inr (he.symm ▸ ⟨a, hla, hd⟩))
  rw [he, hla] at hlr
  exact (Option.some.inj hlr).symm

theorem filter_scanned (hb : b.CleanListing)
    (hbound : ∀ x, b.Live x → (After bound x ↔ After marker x)) :
    (b.scanned scan bound).filter (!·.deleted) = b.pendingRows marker := by
  refine eq_of_nameLt ?_ ((pairwise_liveRows b).filter _) fun a => ?_
  · refine pairwise_nameLt ((scan.sorted _).filter _) ((nodup_scanned b scan bound).filter _) ?_
    intro a ha r hr he
    obtain ⟨ham, had⟩ := mem_filter.mp ha
    obtain ⟨hrm, hrd⟩ := mem_filter.mp hr
    have hla := hb.single a (mem_scanned.mp ham).1 (.inl (by simpa using had))
    have hlr := hb.single r (mem_scanned.mp hrm).1 (.inl (by simpa using hrd))
    rw [he, hlr] at hla
    exact (Option.some.inj hla).symm
  · rw [mem_filter, mem_scanned, mem_pendingRows, Bool.not_eq_true']
    constructor
    · rintro ⟨⟨ha, haft⟩, hd⟩
      have hl := hb.single a ha (.inl hd)
      exact ⟨⟨hl, hd⟩, (hbound _ ⟨a, hl, hd⟩).mp haft⟩
    · rintro ⟨⟨hl, hd⟩, haft⟩
      exact ⟨⟨(latestRow_mem hl).1, (hbound _ ⟨a, hl, hd⟩).mpr haft⟩, hd⟩

theorem CleanListing.literal_marker (hb : b.CleanListing) (hm : ∀ n ∈ marker, b.Live n) :
    ∃ bound, literal? marker = some bound ∧ ∀ x, b.Live x → (After bound x ↔ After marker x) := by
  cases marker with
  | none => exact ⟨none, rfl, fun _ _ => .rfl⟩
  | some n =>
    obtain ⟨v, hv, hx⟩ := hb.markers n (hm n rfl)
    refine ⟨some v, by simp [literal?, hv], fun x hl => ?_⟩
    simpa [After] using hx x hl

theorem filter_after_last {l rest : List Alias} {last : Alias}
    (hs : (l ++ rest).Pairwise fun a r => NameLt a.alias r.alias) (hl : l.getLast? = some last) :
    (l ++ rest).filter (fun a => NameLt last.alias a.alias) = rest := by
  obtain ⟨l', rfl⟩ := getLast?_eq_some_iff.mp hl
  obtain ⟨hfront, -, hcross⟩ := pairwise_append.mp hs
  have hnone : (l' ++ [last]).filter (fun a => NameLt last.alias a.alias) = [] := by
    refine filter_eq_nil_iff.mpr fun a ha => ?_
    rw [decide_eq_true_eq]
    rcases mem_append.mp ha with ha | ha
    · exact lt_asymm ((pairwise_append.mp hfront).2.2 a ha last (by simp))
    · rw [mem_singleton.mp ha]
      exact nameLt_irrefl _
  have hall : rest.filter (fun a => NameLt last.alias a.alias) = rest := by
    refine filter_eq_self.mpr fun a ha => ?_
    rw [decide_eq_true_eq]
    exact hcross last (by simp) a ha
  rw [filter_append, hnone, hall, nil_append]

theorem pendingRows_after {last : Alias} (hl : last ∈ b.pendingRows marker) :
    b.pendingRows (some last.alias) =
      (b.pendingRows marker).filter fun a => NameLt last.alias a.alias := by
  rw [pendingRows, pendingRows, filter_filter]
  refine filter_congr fun a _ => ?_
  rw [Bool.eq_iff_iff, Bool.and_eq_true, decide_eq_true_eq, decide_eq_true_eq, decide_eq_true_eq]
  constructor
  · intro h
    have hlt : NameLt last.alias a.alias := h last.alias rfl
    exact ⟨hlt, fun n hn => lt_trans ((mem_pendingRows.mp hl).2 n hn) hlt⟩
  · rintro ⟨h, -⟩ n hn
    cases hn
    exact h

theorem CleanListing.page (hb : b.CleanListing) (scan : Scan) (headers : Bool) (hk : 1 ≤ k)
    (hm : ∀ n ∈ marker, b.Live n) :
    ∃ out, b.listAliases scan (pageParams k headers marker) = .ok out ∧
      (b.pendingRows marker = [] → aliasesIn out = []) ∧
      (b.pendingRows marker ≠ [] → ∃ last, (aliasesIn out).getLast? = some last ∧
        b.pendingRows marker = aliasesIn out ++ b.pendingRows (some last.alias)) := by
  obtain ⟨bound, hbound, hsame⟩ := hb.literal_marker hm
  obtain ⟨out, hout, hrows⟩ := listAliases_page b scan headers hk hbound
  rw [runTree_scanned hb.single] at hrows
  generalize hS : b.scanned scan bound = S at hrows
  have hfilter : S.filter (!·.deleted) = b.pendingRows marker := by
    rw [← hS]
    exact filter_scanned hb hsame
  have hsorted : S.Pairwise fun a r => nameKey a.alias ≤ nameKey r.alias := hS ▸ scan.sorted _
  have hmem : ∀ a ∈ S, a ∈ b.aliases.rows ∧ After bound a.alias := by
    intro a ha
    rw [← hS] at ha
    exact mem_scanned.mp ha
  have hsplit : b.pendingRows marker = aliasesIn out ++ (S.drop k).filter (!·.deleted) := by
    rw [hrows, ← filter_append, take_append_drop, hfilter]
  refine ⟨out, hout, fun hnil => ?_, fun hne => ?_⟩
  · rw [hnil] at hsplit
    exact (append_eq_nil_iff.mp hsplit.symm).1
  -- 残りがあれば、最初に読む行に印は無い
  obtain ⟨z, hz⟩ := exists_mem_of_ne_nil _ hne
  obtain ⟨⟨hzl, hzd⟩, hza⟩ := mem_pendingRows.mp hz
  have hpage_ne : aliasesIn out ≠ [] := by
    cases S with
    | nil =>
      rw [← hfilter] at hne
      exact absurd rfl hne
    | cons x S =>
      have hx : x.deleted = false := by
        by_contra hxd
        rw [Bool.not_eq_false] at hxd
        obtain ⟨hxm, hxa⟩ := hmem x mem_cons_self
        obtain ⟨y, hy, hya, hyx⟩ := hb.dead marker bound hm hbound x hxm hxd hxa
          ⟨z.alias, ⟨z, hzl, hzd⟩, hza⟩
        obtain ⟨r, hr, rfl⟩ := hy.row
        have hrS : r ∈ x :: S := by
          rw [← hS, mem_scanned]
          exact ⟨(latestRow_mem (mem_liveRows.mp hr).1).1, (hsame _ hy).mpr hya⟩
        rcases mem_cons.mp hrS with rfl | hrS
        · exact nameLt_irrefl _ hyx
        · exact absurd hyx (not_lt.mpr ((pairwise_cons.mp hsorted).1 r hrS))
      obtain ⟨k, rfl⟩ : ∃ j, k = j + 1 := ⟨k - 1, by omega⟩
      rw [hrows, take_succ_cons, filter_cons]
      simp [hx]
  obtain ⟨last, hlast⟩ : ∃ last, (aliasesIn out).getLast? = some last :=
    ⟨_, getLast?_eq_some_getLast hpage_ne⟩
  refine ⟨last, hlast, ?_⟩
  have hlm : last ∈ b.pendingRows marker := by
    rw [hsplit]
    exact mem_append_left _ (mem_of_getLast? hlast)
  have hpw := ((pairwise_liveRows b).filter fun a => decide (After marker a.alias))
  rw [← pendingRows, hsplit] at hpw
  rw [pendingRows_after hlm, hsplit, filter_after_last hpw hlast]

theorem CleanListing.lists (hb : b.CleanListing) (scan : Scan) (hk : 1 ≤ k) (headers : Bool)
    (hm : ∀ n ∈ marker, b.Live n) : b.Lists scan k headers marker (b.pendingRows marker) := by
  -- 残りの行の数についての帰納法
  generalize hlen : (b.pendingRows marker).length = n
  induction n using Nat.strong_induction_on generalizing marker with
  | _ n ih =>
    obtain ⟨out, hout, hstop, hmore⟩ := hb.page scan headers hk hm
    by_cases hnil : b.pendingRows marker = []
    · rw [hnil]
      exact .stop hout (hstop hnil)
    obtain ⟨last, hlast, hsplit⟩ := hmore hnil
    have hlm : last ∈ b.pendingRows marker := by
      rw [hsplit]
      exact mem_append_left _ (mem_of_getLast? hlast)
    obtain ⟨⟨hll, hld⟩, -⟩ := mem_pendingRows.mp hlm
    rw [hsplit]
    refine .more hout hlast (ih (b.pendingRows (some last.alias)).length ?_ ?_ rfl)
    · have hlen' := congrArg length hsplit
      rw [length_append] at hlen'
      have hpos : 0 < (aliasesIn out).length := length_pos_of_mem (mem_of_getLast? hlast)
      omega
    · intro n hn
      cases hn
      exact ⟨last, hll, hld⟩

/-! ## 一覧から条件へ -/

/-- 同じ名前の行の中で `r` を最初に読む順 -/
def preferring (r : Alias) : Scan where
  sort l := orderBy (fun a => toLex (nameKey a.alias, if a = r then 0 else 1)) l
  perm l := perm_orderBy _ l
  sorted l := by
    refine (pairwise_orderBy _ l).imp fun h => ?_
    rcases (Prod.Lex.toLex_le_toLex).mp h with h | h
    · exact le_of_lt h
    · exact le_of_eq h.1
  like _ _ := false
  broken _ := .error ⟨codeInternalError, "near syntax error"⟩

theorem preferring_before {x : Alias} (h : toLex (nameKey x.alias, if x = r then 0 else 1) ≤
      toLex (nameKey r.alias, if r = r then 0 else 1)) (hne : x ≠ r) : NameLt x.alias r.alias := by
  rcases (Prod.Lex.toLex_le_toLex).mp h with h | h
  · exact h
  · simp [hne] at h

theorem Lists.mem_of_page {l : List Alias} (h : b.Lists scan k headers marker l)
    (hp : b.listAliases scan (pageParams k headers marker) = .ok out) (ha : a ∈ aliasesIn out) :
    a ∈ l := by
  cases h with
  | stop hout hnil =>
    rw [hp] at hout
    cases hout
    rw [hnil] at ha
    cases ha
  | more hout hlast hrest =>
    rw [hp] at hout
    cases hout
    exact mem_append_left _ ha

theorem Lists.stop_after {l : List Alias} {last : Alias} (h : b.Lists scan k headers marker l)
    (hl : l.getLast? = some last) : b.Lists scan k headers (some last.alias) [] := by
  induction h with
  | stop _ _ => cases hl
  | @more marker out last' rest hout hlast hrest ih =>
    cases rest with
    | nil =>
      rw [append_nil, hlast, Option.some.injEq] at hl
      exact hl ▸ hrest
    | cons x rest =>
      rw [getLast?_append_of_ne_nil _ (cons_ne_nil x rest)] at hl
      exact ih hl

theorem runTree_one (x : Alias) : runTree true false [x] = [x].filter (!·.deleted) := by
  refine runTree_eq_filter (pairwise_singleton _ _) (nodup_singleton x) ?_
  intro a ha _ r hr _
  rw [mem_singleton.mp ha, mem_singleton.mp hr]

theorem Lists.literal {l : List Alias} {e : GError} (hbroken : ∀ text, scan.broken text = .error e)
    (h : b.Lists scan k headers marker l) : ∃ bound, literal? marker = some bound := by
  cases hb : literal? marker with
  | some bound => exact ⟨bound, rfl⟩
  | none =>
    have herr := listAliases_broken b k headers hb hbroken
    cases h with
    | stop hout _ | more hout _ _ =>
      rw [hout] at herr
      cases herr

theorem Lists.head (hbound : literal? marker = some bound)
    (h : b.Lists scan 1 headers marker (a :: rest)) :
    (b.scanned scan bound).head? = some a ∧ b.Lists scan 1 headers (some a.alias) rest := by
  obtain ⟨out, hout, hrows⟩ := listAliases_page b scan headers le_rfl hbound
  have hone : aliasesIn out = (b.scanned scan bound).head?.toList.filter (!·.deleted) := by
    rw [hrows]
    cases b.scanned scan bound with
    | nil => rfl
    | cons x S => exact runTree_one x
  generalize hl : a :: rest = l at h
  cases h with
  | stop _ _ => cases hl
  | @more _ out' last rest' hout' hlast hrest =>
    rw [hout] at hout'
    cases hout'
    cases hh : (b.scanned scan bound).head? with
    | none =>
      rw [hone, hh] at hlast
      cases hlast
    | some x =>
      rw [hone, hh] at hlast hl
      by_cases hx : x.deleted = true
      · simp [hx] at hlast
      simp only [Option.toList_some, hx, filter_cons, Bool.not_false, if_true,
        filter_nil, getLast?_singleton, Option.some.injEq, singleton_append,
        cons.injEq] at hlast hl
      obtain ⟨rfl, rfl⟩ := hl
      exact ⟨rfl, hlast ▸ hrest⟩

theorem Lists.after {e : GError} (hbroken : ∀ text, scan.broken text = .error e) {l : List Alias}
    (h : b.Lists scan 1 headers marker (l ++ a :: rest)) :
    (∃ bound, (b.scanned scan bound).head? = some a) ∧
      b.Lists scan 1 headers (some a.alias) rest := by
  obtain ⟨bound, hbound⟩ := h.literal hbroken
  induction l generalizing marker bound with
  | nil =>
    obtain ⟨hh, hrest⟩ := h.head hbound
    exact ⟨⟨bound, hh⟩, hrest⟩
  | cons x l ih =>
    obtain ⟨-, hrest⟩ := h.head hbound
    obtain ⟨bound', hbound'⟩ := hrest.literal hbroken
    exact ih hrest bound' hbound'

theorem le_of_head (hh : (b.scanned scan bound).head? = some a) (hr : r ∈ b.scanned scan bound) :
    nameKey a.alias ≤ nameKey r.alias := by
  have hs := sorted_scanned b scan bound
  cases hS : b.scanned scan bound with
  | nil => simp [hS] at hh
  | cons x S =>
    rw [hS] at hh hr hs
    cases hh
    rcases mem_cons.mp hr with rfl | hr
    · exact le_rfl
    · exact (pairwise_cons.mp hs).1 r hr

theorem mem_page_preferring (headers : Bool) (hr : r ∈ b.aliases.rows) (hd : r.deleted = false) :
    ∃ k out, 1 ≤ k ∧ b.listAliases (preferring r) (pageParams k headers none) = .ok out ∧
      r ∈ aliasesIn out := by
  have hrS : r ∈ b.scanned (preferring r) none := mem_scanned.mpr ⟨hr, nofun⟩
  obtain ⟨A, B, hS⟩ := append_of_mem hrS
  obtain ⟨out, hout, hrows⟩ := listAliases_page b (preferring r) headers
    (Nat.succ_le_succ (Nat.zero_le A.length)) (rfl : literal? none = some none)
  refine ⟨A.length + 1, out, Nat.succ_le_succ (Nat.zero_le _), hout, ?_⟩
  have htake : (b.scanned (preferring r) none).take (A.length + 1) = A ++ [r] := by
    rw [hS, take_length_add_append]
    rfl
  have hA : ∀ x ∈ A, NameLt x.alias r.alias := by
    intro x hx
    have hp : (b.scanned (preferring r) none).Pairwise fun x y =>
        toLex (nameKey x.alias, if x = r then 0 else 1) ≤
          toLex (nameKey y.alias, if y = r then 0 else 1) := pairwise_orderBy _ _
    have hn := nodup_scanned b (preferring r) none
    rw [hS] at hp hn
    refine preferring_before ((pairwise_append.mp hp).2.2 x hx r mem_cons_self) ?_
    rintro rfl
    exact (nodup_append.mp hn).2.2 x hx x mem_cons_self rfl
  have hlist : versionList (A ++ [r]) r.alias = [r] := by
    refine perm_singleton.mp ((perm_versionList _ _).trans (.of_eq ?_))
    have hnone : A.filter (·.alias = r.alias) = [] := by
      refine filter_eq_nil_iff.mpr fun x hx => ?_
      rw [decide_eq_true_eq]
      intro he
      exact nameLt_irrefl _ (he ▸ hA x hx)
    rw [filter_append, hnone]
    simp
  rw [hrows, htake, mem_runTree, hlist]
  exact ⟨rfl, hd⟩

theorem head_preferring {x : Alias} (hh : (b.scanned (preferring r) bound).head? = some x)
    (hr : r ∈ b.scanned (preferring r) bound) (hne : x ≠ r) : NameLt x.alias r.alias := by
  have hp : (b.scanned (preferring r) bound).Pairwise fun x y =>
      toLex (nameKey x.alias, if x = r then 0 else 1) ≤
        toLex (nameKey y.alias, if y = r then 0 else 1) := pairwise_orderBy _ _
  cases hS : b.scanned (preferring r) bound with
  | nil => simp [hS] at hh
  | cons y S =>
    rw [hS] at hh hr hp
    cases hh
    rcases mem_cons.mp hr with he | hr
    · exact absurd he.symm hne
    · exact preferring_before ((pairwise_cons.mp hp).1 r hr) hne

/-- 大きさ 1 の page の一覧の `x` より後 -/
structure Cut (b : Base) (scan : Scan) (x : Alias) (rest : List Alias) : Prop where
  complete : ∀ y, b.Live y → NameLt x.alias y → ∃ z ∈ rest, z.alias = y
  later : ∀ z ∈ rest, z ∈ b.liveRows ∧ NameLt x.alias z.alias
  sorted : rest.Pairwise fun a r => NameLt a.alias r.alias
  last : rest = [] → b.liveRows.getLast? = some x
  head : ∃ bound, (b.scanned scan bound).head? = some x
  next : b.Lists scan 1 false (some x.alias) rest

theorem exists_cut (scan : Scan) {x : Alias} {e : GError} (hbroken : ∀ text, scan.broken text = .error e)
    (h : b.Lists scan 1 false none b.liveRows) (hx : x ∈ b.liveRows) :
    ∃ rest, b.Cut scan x rest := by
  obtain ⟨l, rest, hl⟩ := append_of_mem hx
  have hp := pairwise_liveRows b
  have hlists := h
  rw [hl] at hp hlists
  obtain ⟨-, hback, hcross⟩ := pairwise_append.mp hp
  obtain ⟨hafter, hrest⟩ := pairwise_cons.mp hback
  obtain ⟨hhead, hnext⟩ := hlists.after hbroken
  refine ⟨rest, fun y hy hxy => ?_, fun z hz => ⟨?_, hafter z hz⟩, hrest, ?_, hhead, hnext⟩
  · obtain ⟨z, hz, rfl⟩ := hy.row
    rw [hl] at hz
    rcases mem_append.mp hz with hz | hz
    · exact absurd hxy (lt_asymm (hcross z hz x mem_cons_self))
    rcases mem_cons.mp hz with rfl | hz
    · exact absurd hxy (nameLt_irrefl _)
    · exact ⟨z, hz, rfl⟩
  · rw [hl]
    exact mem_append_right _ (mem_cons_of_mem _ hz)
  · rintro rfl
    rw [hl, getLast?_append_of_ne_nil _ (cons_ne_nil _ _)]
    rfl

/-- どの大きさの page でも正しい一覧 -/
def ListsLive (b : Base) : Prop :=
  ∀ (scan : Scan) (k : Nat) (headers : Bool), 1 ≤ k → b.Lists scan k headers none b.liveRows

theorem ListsLive.single (h : b.ListsLive) (hr : r ∈ b.aliases.rows)
    (hlive : r.deleted = false ∨ b.Live r.alias) : b.latestRow r.alias = some r := by
  rcases hlive with hd | hlive
  · obtain ⟨k, out, hk, hout, hmem⟩ := mem_page_preferring false hr hd
    exact (mem_liveRows.mp ((h (preferring r) k false hk).mem_of_page hout hmem)).1
  obtain ⟨x, hx, hxn⟩ := hlive.row
  obtain ⟨rest, hcut⟩ := exists_cut (preferring r) (fun _ => rfl) (h _ 1 false le_rfl) hx
  obtain ⟨bound, hhead⟩ := hcut.head
  -- `r` は同じ名前の中で最初に読まれる
  have hbound := (mem_scanned.mp (mem_of_mem_head? hhead)).2
  have hrS : r ∈ b.scanned (preferring r) bound := mem_scanned.mpr ⟨hr, hxn ▸ hbound⟩
  have hxr : x = r := by
    by_contra hne
    exact nameLt_irrefl _ (hxn ▸ head_preferring hhead hrS hne)
  exact hxr ▸ (mem_liveRows.mp hx).1

theorem ListsLive.last (h : b.ListsLive) {x : Alias} (hx : b.liveRows.getLast? = some x)
    (hbound : literal? (some x.alias) = some bound) (hr : r ∈ b.liveRows) :
    ¬ After bound r.alias := by
  intro haft
  have hk : 1 ≤ b.aliases.rows.length + 1 := Nat.succ_le_succ (Nat.zero_le _)
  have hstop := (h (preferring r) _ false hk).stop_after hx
  obtain ⟨out, hout, hrows⟩ := listAliases_page b (preferring r) false hk hbound
  obtain ⟨hl, hd⟩ := mem_liveRows.mp hr
  have hrm := (latestRow_mem hl).1
  have hlen : (b.scanned (preferring r) bound).length ≤ b.aliases.rows.length + 1 := by
    rw [scanned, ((preferring r).perm _).length_eq]
    exact (length_filter_le _ _).trans (Nat.le_succ _)
  rw [runTree_scanned fun r hr => h.single hr, take_of_length_le hlen] at hrows
  have hmem : r ∈ aliasesIn out := by
    rw [hrows]
    exact mem_filter.mpr ⟨mem_scanned.mpr ⟨hrm, haft⟩, by simp [hd]⟩
  exact absurd (hstop.mem_of_page hout hmem) not_mem_nil

theorem ListsLive.markers (h : b.ListsLive) {n : Bytes} (hn : b.Live n) :
    ∃ v, literalValue n = some v ∧ ∀ x, b.Live x → (NameLt v x ↔ NameLt n x) := by
  obtain ⟨r, hr, rfl⟩ := hn.row
  obtain ⟨rest, hcut⟩ := exists_cut (preferring r) (fun _ => rfl) (h _ 1 false le_rfl) hr
  obtain ⟨bound, hbound⟩ := hcut.next.literal (e := ⟨codeInternalError, "near syntax error"⟩)
    fun _ => rfl
  obtain ⟨v, hv, rfl⟩ := Option.map_eq_some_iff.mp hbound
  refine ⟨v, hv, fun x hx => ?_⟩
  obtain ⟨y, hy, rfl⟩ := hx.row
  have hym := (latestRow_mem (mem_liveRows.mp hy).1).1
  cases rest with
  | nil =>
    have hlast := hcut.last rfl
    refine iff_of_false (fun hlt => ?_) fun hlt => ?_
    · refine h.last hlast hbound hy fun n hn => ?_
      cases hn
      exact hlt
    · obtain ⟨z, hz, -⟩ := hcut.complete _ hx hlt
      cases hz
  | cons c rest =>
    obtain ⟨hhead, -⟩ := hcut.next.head hbound
    have hvc : NameLt v c.alias := (mem_scanned.mp (mem_of_mem_head? hhead)).2 v rfl
    constructor
    · intro hlt
      have hyS : y ∈ b.scanned (preferring r) (some v) := by
        refine mem_scanned.mpr ⟨hym, fun n hn => ?_⟩
        cases hn
        exact hlt
      exact (hcut.later c mem_cons_self).2.trans_le (le_of_head hhead hyS)
    · intro hlt
      obtain ⟨z, hz, hzn⟩ := hcut.complete _ hx hlt
      rw [← hzn]
      rcases mem_cons.mp hz with rfl | hz
      · exact hvc
      · exact lt_trans hvc ((pairwise_cons.mp hcut.sorted).1 z hz)

theorem ListsLive.dead (h : b.ListsLive) (hm : ∀ n ∈ marker, b.Live n)
    (hbound : literal? marker = some bound) (hr : r ∈ b.aliases.rows) (hd : r.deleted = true)
    (haft : After bound r.alias) (hsome : ∃ x, b.Live x ∧ After marker x) :
    ∃ x, b.Live x ∧ After marker x ∧ NameLt x r.alias := by
  -- marker の後の最初の行が求める名前
  obtain ⟨c, rest, hc, hnext⟩ : ∃ c rest, (c ∈ b.liveRows ∧ After marker c.alias) ∧
      b.Lists (preferring r) 1 false marker (c :: rest) := by
    obtain ⟨x, hx, hxa⟩ := hsome
    cases marker with
    | none =>
      obtain ⟨y, hy, -⟩ := hx.row
      cases hl : b.liveRows with
      | nil =>
        rw [hl] at hy
        cases hy
      | cons c rest => exact ⟨c, rest, ⟨mem_cons_self, nofun⟩, hl ▸ h _ 1 false le_rfl⟩
    | some n =>
      obtain ⟨y, hy, rfl⟩ := (hm n rfl).row
      obtain ⟨rest, hcut⟩ := exists_cut (preferring r) (fun _ => rfl) (h _ 1 false le_rfl) hy
      obtain ⟨z, hz, -⟩ := hcut.complete x hx (hxa _ rfl)
      cases rest with
      | nil => cases hz
      | cons c rest =>
        obtain ⟨hcl, hlt⟩ := hcut.later c mem_cons_self
        refine ⟨c, rest, ⟨hcl, fun n hn => ?_⟩, hcut.next⟩
        cases hn
        exact hlt
  obtain ⟨hhead, -⟩ := hnext.head hbound
  refine ⟨c.alias, live_of_mem_liveRows hc.1, hc.2, ?_⟩
  refine nameLt_of_le_of_ne (le_of_head hhead (mem_scanned.mpr ⟨hr, haft⟩)) fun he => ?_
  -- 印のある行は別の名前
  have hlr := h.single hr (.inr (he ▸ live_of_mem_liveRows hc.1))
  obtain ⟨hlc, hcd⟩ := mem_liveRows.mp hc.1
  rw [he, hlr, Option.some.injEq] at hlc
  rw [← hlc, hd] at hcd
  cases hcd

/-- **一覧の正しさ。** page を続けた一覧が生きている名前の最新の行を 1 度ずつ順に返すのは `CleanListing` のときに限る。 -/
theorem listing_complete_iff (b : Base) : b.ListsLive ↔ b.CleanListing := by
  constructor
  · intro h
    exact ⟨fun r hr hl => h.single hr hl, fun n hn => h.markers hn,
      fun marker bound hm hb r hr hd ha hs => h.dead hm hb hr hd ha hs⟩
  · intro hb scan k headers hk
    rw [← pendingRows_none]
    exact hb.lists scan hk headers nofun

/-! ### 失われる名前 -/

/-- `a` の version 1 と `b` は生きていて、`a` の version 2 には印がある -/
def shadowedBase : Base :=
  Base.init.saveAll [.aliases ⟨ascii "a", 1, 1, ascii "u", [], 1, false⟩,
    .aliases ⟨ascii "a", 2, 2, ascii "u", [], 1, true⟩,
    .aliases ⟨ascii "b", 1, 3, ascii "v", [], 1, false⟩]

/-- 大きさ 2 の page は `a` の 2 行を読んで空になり、`b` は一覧に入らない -/
theorem live_name_not_listed : (∃ r ∈ shadowedBase.liveRows, r.alias = ascii "b") ∧
    ∀ (scan : Scan) (l : List Alias), shadowedBase.Lists scan 2 false none l → l = [] := by
  refine ⟨by decide +kernel, fun scan l h => ?_⟩
  obtain ⟨out, hout, hrows⟩ := listAliases_page shadowedBase scan false (k := 2) (by decide)
    (rfl : literal? none = some none)
  have hall : ∀ S ∈ (shadowedBase.aliases.rows.filter fun a => After none a.alias).permutations',
      (S.Pairwise fun a r => nameKey a.alias ≤ nameKey r.alias) →
        runTree true false (S.take 2) = [] := by
    decide +kernel
  have hnil : aliasesIn out = [] := by
    rw [hrows]
    exact hall _ (mem_permutations'.mpr (scan.perm _)) (sorted_scanned ..)
  cases h with
  | stop _ _ => rfl
  | more hout' hlast _ =>
    rw [hout] at hout'
    cases hout'
    rw [hnil] at hlast
    cases hlast

end

end Base

end Redcurrant.Meta2
