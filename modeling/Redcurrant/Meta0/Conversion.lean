import Mathlib.Data.Finset.Card
import Redcurrant.Meta0.Select

/-!
# meta0 の表の 3 つの形

`meta0v2/meta0_utils.c`。prefix ごとの URL の表、META1 ごとの prefix の list、URL を鍵とする木。URL は番地に
読まれるので、読めない番地は戻らない。
-/

namespace Redcurrant.Meta0

open Infra Metautils List

def Meta0Info.url (m : Meta0Info) : Bytes := gridAddrinfoToString m.addr 128

/-- `meta0_utils_list_to_array` -/
def listToArray (infos : List Meta0Info) : PrefixArray :=
  infos.foldl (fun a m => m.prefixes.foldl (fun a p => arrayAdd a p m.url) a) fun _ => []

/-- `meta0_utils_list_to_tree`。同じ URL の節は後のものに替わる。 -/
def listToTree (infos : List Meta0Info) : Bytes → Option (List Nat) :=
  infos.foldl (fun t m => fun u => if m.url = u then some m.prefixes else t u) fun _ => none

def prefixesOf (infos : List Meta0Info) (u : Bytes) : List Nat :=
  infos.flatMap fun m => if m.url = u then m.prefixes else []

variable {infos : List Meta0Info} {u : Bytes} {p : Nat} {errno : Bytes → Bool} {a : PrefixArray}

/-! ## 表と list -/

theorem count_arrayAdd (a : PrefixArray) (q : Nat) (v : Bytes) :
    (arrayAdd a q v p).count u = (a p).count u + if v = u then [q].count p else 0 := by
  rw [arrayAdd]
  by_cases hq : p = q
  · subst hq
    rw [setAt_same, count_append, count_singleton]
    simp
  · have hzero : [q].count p = 0 := count_eq_zero.mpr (by simpa using hq)
    rw [setAt_of_ne a _ hq, hzero, ite_self, Nat.add_zero]

theorem count_foldl_arrayAdd (v : Bytes) : ∀ (ps : List Nat) (a : PrefixArray),
    (ps.foldl (fun a p => arrayAdd a p v) a p).count u =
      (a p).count u + if v = u then ps.count p else 0
  | [], a => by simp
  | q :: ps, a => by
    have hcons : ([q] ++ ps).count p = [q].count p + ps.count p := count_append
    rw [singleton_append] at hcons
    rw [foldl_cons, count_foldl_arrayAdd v ps, count_arrayAdd]
    split <;> omega

theorem count_listToArray : (listToArray infos p).count u = (prefixesOf infos u).count p := by
  have h : ∀ a : PrefixArray,
      (infos.foldl (fun a m => m.prefixes.foldl (fun a p => arrayAdd a p m.url) a) a p).count u =
        (a p).count u + (prefixesOf infos u).count p := by
    induction infos with
    | nil => simp [prefixesOf]
    | cons m infos ih =>
      intro a
      rw [foldl_cons, ih, count_foldl_arrayAdd, prefixesOf, prefixesOf, flatMap_cons]
      split <;> simp [Nat.add_assoc]
  rw [listToArray, h, count_nil, Nat.zero_add]

/-! ## 木と list -/

/-- 後に同じ URL の節があれば、先の節に prefix はない -/
def Superseded (infos : List Meta0Info) : Prop :=
  infos.Pairwise fun m n => m.url = n.url → m.prefixes = []

theorem listToTree_append {m : Meta0Info} : listToTree (infos ++ [m]) u =
    if m.url = u then some m.prefixes else listToTree infos u := by
  rw [listToTree, foldl_append]
  rfl

theorem prefixesOf_append {m : Meta0Info} : prefixesOf (infos ++ [m]) u =
    prefixesOf infos u ++ if m.url = u then m.prefixes else [] := by
  rw [prefixesOf, flatMap_append, flatMap_singleton]
  rfl

theorem mem_prefixesOf_of_tree (h : p ∈ (listToTree infos u).getD []) : p ∈ prefixesOf infos u := by
  induction infos using reverseRecOn with
  | nil => cases h
  | append_singleton infos m ih =>
    rw [listToTree_append] at h
    rw [prefixesOf_append, mem_append]
    split at h
    · next hm =>
      rw [if_pos hm]
      exact .inr h
    · exact .inl (ih h)

/-- 木と list の prefix が同じなのは失われる節に prefix の無いとき -/
theorem tree_iff : (∀ u p, ((listToTree infos u).getD []).count p = (prefixesOf infos u).count p) ↔
    Superseded infos := by
  induction infos using reverseRecOn with
  | nil => exact iff_of_true (fun _ _ => rfl) Pairwise.nil
  | append_singleton infos m ih =>
    have hnil : (∀ n ∈ infos, n.url = m.url → n.prefixes = []) ↔ prefixesOf infos m.url = [] := by
      rw [prefixesOf, flatMap_eq_nil_iff]
      refine forall₂_congr fun n _ => ?_
      split <;> simp_all
    rw [Superseded, pairwise_append, ← Superseded, ← ih]
    simp only [pairwise_singleton, true_and, mem_singleton, forall_eq, hnil, listToTree_append,
      prefixesOf_append, count_append]
    constructor
    · intro h
      have hempty : prefixesOf infos m.url = [] := by
        refine eq_nil_iff_forall_not_mem.mpr fun q hq => ?_
        have hq := count_pos_iff.mpr hq
        have := h m.url q
        rw [if_pos rfl, if_pos rfl, Option.getD_some] at this
        omega
      refine ⟨fun u q => ?_, hempty⟩
      by_cases hu : m.url = u
      · rw [← hu, hempty, count_nil, count_eq_zero]
        intro hq
        have := mem_prefixesOf_of_tree hq
        rw [hempty] at this
        cases this
      · simpa [hu] using h u q
    · rintro ⟨h, hempty⟩ u q
      by_cases hu : m.url = u
      · subst hu
        simp [hempty]
      · simpa [hu] using h u q

/-! ## 表から list へ、また表へ -/

/-- URL を番地に読み、書き直したもの。読めなければ 0。 -/
def rewritten (errno : Bytes → Bool) (u : Bytes) : Bytes :=
  gridAddrinfoToString ((gridStringToAddrinfo (errno u) u).getD zeroAddr) 128

theorem rewritten_addrText (errno : Bytes → Bool) {b : AddrInfo} (hb : b.Wf) :
    rewritten errno (addrText b) = addrText b ∨
      rewritten errno (addrText b) = addrText zeroAddr := by
  rw [rewritten, gridStringToAddrinfo_addrText hb]
  split
  · exact .inl (gridAddrinfoToString_eq (a := { b with protocol := 0 }) ⟨hb.length_eq, hb.port_lt⟩)
  · exact .inr (gridAddrinfoToString_eq (by decide))

theorem exists_rewritten (errno : Bytes → Bool) (u : Bytes) :
    ∃ b : AddrInfo, b.Wf ∧ rewritten errno u = addrText b := by
  rw [rewritten]
  cases h : gridStringToAddrinfo (errno u) u with
  | none => exact ⟨zeroAddr, by decide, gridAddrinfoToString_eq (by decide)⟩
  | some b =>
    have hb := (wf_of_gridStringToAddrinfo h).1
    exact ⟨b, hb, gridAddrinfoToString_eq hb⟩

/-- URL の集合が変わらないなら、どの URL も変わらない -/
theorem rewritten_eq {us : List Bytes} (h : ∀ u, u ∈ us ↔ ∃ v ∈ us, rewritten errno v = u) :
    ∀ u ∈ us, rewritten errno u = u := by
  have hinj : Set.InjOn (rewritten errno) us.toFinset := by
    refine Finset.injOn_of_card_image_eq (congrArg _ (Finset.ext fun u => ?_))
    simp [← h]
  intro u hu
  obtain ⟨w, -, hw⟩ := (h u).mp hu
  obtain ⟨b, hb, hb'⟩ := exists_rewritten errno w
  obtain rfl : addrText b = u := hb'.symm.trans hw
  rcases rewritten_addrText errno hb with heq | hzero
  · exact heq
  -- 単射なので、0 の番地に移るのは 0 の番地だけ
  have hfix : rewritten errno (addrText zeroAddr) = addrText zeroAddr :=
    (rewritten_addrText errno (by decide)).elim id id
  have hmem : addrText zeroAddr ∈ us := (h _).mpr ⟨_, hu, hzero⟩
  have hsame := hinj (by simpa using hu) (by simpa using hmem) (hzero.trans hfix.symm)
  rw [hsame, hfix]

theorem count_prefixes (a : PrefixArray) (hp : p < prefixCount) :
    ((arrayPairs a).filterMap fun q => if q.2 = u then some q.1 else none).count p =
      (a p).count u := by
  have hgen : ∀ n, (((range n).flatMap fun p => (a p).map fun u => (p, u)).filterMap
      fun q => if q.2 = u then some q.1 else none).count p = if p < n then (a p).count u else 0 := by
    intro n
    induction n with
    | zero => rfl
    | succ n ih =>
      rw [range_succ, flatMap_append, filterMap_append, count_append, ih, flatMap_singleton,
        filterMap_map]
      show _ + count p ((a n).filterMap fun v => if v = u then some n else none) = _
      rw [filterMap_ite_eq, count_replicate]
      by_cases hn : n = p
      · simp [hn]
      have hbeq : (n == p) = false := by simpa using hn
      simp only [hbeq, Bool.false_eq_true, if_false, Nat.add_zero]
      exact if_congr (by omega) rfl rfl
  rw [arrayPairs, hgen, if_pos hp]

theorem flatMap_select {α β : Type} [DecidableEq α] {u : α} (f : α → List β) :
    ∀ {us : List α}, us.Nodup →
      (us.flatMap fun v => if v = u then f v else []) = if u ∈ us then f u else []
  | [], _ => rfl
  | v :: us, h => by
    have h' := nodup_cons.mp h
    rw [flatMap_cons, flatMap_select f h'.2]
    by_cases hv : v = u
    · subst hv
      rw [if_pos rfl, if_neg h'.1, if_pos mem_cons_self, append_nil]
    · rw [if_neg hv]
      exact if_congr (by simp [Ne.symm hv]) rfl rfl

theorem nodup_eraseDups : ∀ l : List Bytes, l.eraseDups.Nodup
  | [] => nodup_nil
  | v :: l => by
    rw [eraseDups_cons, nodup_cons]
    exact ⟨by simp, nodup_eraseDups _⟩
termination_by l => l.length
decreasing_by exact Nat.lt_succ_of_le (length_filter_le _ _)

theorem mem_urls {le : Bytes → Bytes → Bool} {v : Bytes} :
    v ∈ ((arrayPairs a).map (·.2)).eraseDups.mergeSort le ↔ ∃ q < prefixCount, v ∈ a q := by
  rw [arrayPairs]
  simp

theorem mem_listToArray (hp : p < prefixCount) :
    u ∈ listToArray (arrayToList errno a) p ↔ ∃ v ∈ a p, rewritten errno v = u := by
  rw [← count_pos_iff, count_listToArray, count_pos_iff, prefixesOf, arrayToList, pairsToList]
  constructor
  · intro h
    obtain ⟨m, hm, hpm⟩ := mem_flatMap.mp h
    obtain ⟨v, -, rfl⟩ := mem_map.mp hm
    split at hpm
    · next hv =>
      refine ⟨v, ?_, hv⟩
      simpa [arrayPairs, hp] using hpm
    · cases hpm
  · rintro ⟨v, hv, rfl⟩
    refine mem_flatMap.mpr ⟨_, mem_map.mpr ⟨v, mem_reverse.mpr (mem_urls.mpr ⟨p, hp, hv⟩), rfl⟩, ?_⟩
    show p ∈ if rewritten errno v = rewritten errno v then _ else _
    rw [if_pos rfl]
    simpa [arrayPairs, hp] using hv

theorem count_arrayToList (h : ∀ p < prefixCount, ∀ u ∈ a p, rewritten errno u = u)
    (hp : p < prefixCount) : (prefixesOf (arrayToList errno a) u).count p = (a p).count u := by
  rw [arrayToList, pairsToList]
  generalize hus : ((arrayPairs a).map (·.2)).eraseDups.mergeSort _ = us
  have hmem : ∀ v, v ∈ us ↔ ∃ q < prefixCount, v ∈ a q := fun v => by rw [← hus, mem_urls]
  have hnodup : us.reverse.Nodup := by
    rw [nodup_reverse, ← hus, (mergeSort_perm _ _).nodup_iff]
    exact nodup_eraseDups _
  have hurl : prefixesOf (us.reverse.map fun v =>
      (⟨(gridStringToAddrinfo (errno v) v).getD zeroAddr,
        (arrayPairs a).filterMap fun q => if q.2 = v then some q.1 else none⟩ : Meta0Info)) u =
      us.reverse.flatMap fun v =>
        if v = u then (arrayPairs a).filterMap fun q => if q.2 = v then some q.1 else none
        else [] := by
    rw [prefixesOf, flatMap_map]
    refine flatMap_congr fun v hv => ?_
    obtain ⟨q, hq, hvq⟩ := (hmem v).mp (mem_reverse.mp hv)
    show (if rewritten errno v = u then _ else _) = _
    rw [h q hq v hvq]
  show (prefixesOf (us.reverse.map _) u).count p = _
  rw [hurl, flatMap_select _ hnodup]
  split
  · exact count_prefixes a hp
  rename_i hu
  rw [count_nil, eq_comm, count_eq_zero]
  exact fun hua => hu (mem_reverse.mpr ((hmem u).mpr ⟨p, hp, hua⟩))

/-- **表を list にして戻しても URL が重複ごと変わらないのは、どの URL も読んで書き直して変わらないときに限る。list から
作った木と表が同じ prefix を与えるのは、後に同じ URL の節のある節に prefix の無いときに限る。** -/
theorem meta0_conversions_iff (errno : Bytes → Bool) (a : PrefixArray) (infos : List Meta0Info) :
    ((∀ p < prefixCount, (listToArray (arrayToList errno a) p).Perm (a p)) ↔
      ∀ p < prefixCount, ∀ u ∈ a p, rewritten errno u = u) ∧
    ((∀ u p, ((listToTree infos u).getD []).count p = (listToArray infos p).count u) ↔
      Superseded infos) := by
  refine ⟨⟨fun h p hp => ?_, fun h p hp => perm_iff_count.mpr fun u => ?_⟩, ?_⟩
  · refine rewritten_eq fun u => ?_
    rw [← mem_listToArray hp, (h p hp).mem_iff]
  · rw [count_listToArray, count_arrayToList h hp]
  · simp only [count_listToArray]
    exact tree_iff

def localInfo (port : Nat) (prefixes : List Nat) : Meta0Info :=
  ⟨⟨.v4, [127, 0, 0, 1], port, 0⟩, prefixes⟩

def localArray (ports : List Nat) : PrefixArray :=
  fun q => if q = 3 then ports.map fun port => (localInfo port []).url else []

/-- **反例。** port 65535 の URL は `0.0.0.0:0` になり、同じ番地の節があれば、木は先の prefix を失う。 -/
theorem meta0_conversion_lost :
    listToArray (arrayToList (fun _ => false) (localArray [65535])) 3 = [addrText zeroAddr] ∧
    localArray [65535] 3 ≠ [addrText zeroAddr] ∧
    listToTree [localInfo 7 [3], localInfo 7 [4]] (localInfo 7 []).url = some [4] ∧
    listToArray [localInfo 7 [3], localInfo 7 [4]] 3 = [(localInfo 7 []).url] := by
  refine ⟨?_, by decide +kernel, by decide +kernel, by decide +kernel⟩
  have hpairs : arrayPairs (localArray [65535]) = [(3, (localInfo 65535 []).url)] := by
    have hselect := flatMap_select (u := 3) (fun p => [(p, (localInfo 65535 []).url)])
      (nodup_range (n := prefixCount))
    rw [if_pos (mem_range.mpr (by decide))] at hselect
    rw [arrayPairs, ← hselect]
    exact flatMap_congr fun p _ => by rw [localArray]; split <;> rfl
  rw [arrayToList, hpairs]
  decide +kernel

end Redcurrant.Meta0
