import Redcurrant.Conscience.BrokenElement

/-!
# 記録して直した要素が無くなる条件

1 つの META2 の表（`content_restored_iff`）から、holder 全体（`restored_iff`）へ。
-/

namespace Redcurrant.Conscience

open Infra Metautils List Function Option Element

variable {sv : Services} {einval : Bool} {h : BrokenHolder} {n : Nat} {key fixed cid name : Bytes}
  {c : Bool} {s t : Containers}

/-! ## 1 つの置き場 -/

theorem iterate_content (hn : 0 < n) (r : BrokenContent) : (countdown contentCounter)^[n] (some r) =
    if r.counter ≤ n then none else some { r with counter := r.counter - n } :=
  iterate_countdown_some contentCounter hn r

theorem countdown_same (hn : 0 < n) {r : BrokenContent} (hr : r.isContainer = c)
    (o : Option BrokenContent) :
    (ofKind c ((countdown contentCounter)^[n] (some r)) = none ∧
      ofKind (!c) ((countdown contentCounter)^[n] (some r)) = ofKind (!c) o) ↔
      r.counter ≤ n ∧ ofKind (!c) o = none := by
  rw [iterate_content hn]
  by_cases hle : r.counter ≤ n
  · simp [hle, eq_comm]
  have hset : ({ r with counter := r.counter - n } : BrokenContent).isContainer = c := hr
  rw [if_neg hle, ofKind_some, if_pos hset]
  simp [hle]

theorem countdown_other (hn : 0 < n) {r : BrokenContent} (hr : r.isContainer = !c) :
    ofKind (!c) ((countdown contentCounter)^[n] (some r)) ≠ ofKind (!c) (some r) := by
  rw [iterate_content hn, ofKind_some, if_pos hr]
  by_cases hle : r.counter ≤ n
  · rw [if_pos hle]
    nofun
  have hset : ({ r with counter := r.counter - n } : BrokenContent).isContainer = !c := hr
  rw [if_neg hle, ofKind_some, if_pos hset]
  intro heq
  have : r.counter - n = r.counter := congrArg BrokenContent.counter (some.inj heq)
  omega

theorem tableRestored_same (hs : ∀ k, k ≠ key → s k = t k) :
    TableRestored key c t (update s key ((countdown contentCounter)^[n] (s key))) ↔
      ofKind c ((countdown contentCounter)^[n] (s key)) = none ∧
        ofKind (!c) ((countdown contentCounter)^[n] (s key)) = ofKind (!c) (t key) := by
  rw [TableRestored, update_self]
  refine and_iff_left fun k hk => ?_
  rw [update_of_ne hk, hs k hk]

theorem tableRestored_differ (hn : 0 < n) (hne : fixed ≠ key) (hs : ∀ k, k ≠ key → s k = t k) :
    TableRestored key c t (update s fixed ((countdown contentCounter)^[n] (s fixed))) ↔
      (ofKind c (s key) = none ∧ ofKind (!c) (s key) = ofKind (!c) (t key)) ∧ t fixed = none := by
  rw [TableRestored, update_of_ne hne.symm]
  refine and_congr_right fun _ => ?_
  constructor
  · intro hkeys
    have hfixed := hkeys fixed hne
    rw [update_self, hs fixed hne] at hfixed
    exact (iterate_countdown_eq_self contentCounter hn).mp hfixed
  · intro hnone k hk
    by_cases hkf : k = fixed
    · rw [hkf, update_self, hs fixed hne, hnone, iterate_countdown_none]
    · rw [update_of_ne hkf, hs k hk]

/-! ## content -/

theorem isContainer_create_some {cause : Option Bytes} (hname : name ≠ []) :
    (createBrokenContent sv cid (some name) cause).isContainer = false := by
  obtain ⟨b, rest, rfl⟩ := exists_cons_of_ne_nil hname
  rfl

/-- **1 つの META2 の中の content。** -/
theorem content_restored_iff (hn : 0 < n) (hname : name ≠ []) (cause : Option Bytes)
    (t : Containers) :
    TableRestored (contentKey addKeySize (some cid) name) false t
      (update (addContainer sv cid (some name) cause t)
        (contentKey fixKeySize (some cid) name) ((countdown contentCounter)^[n]
          (addContainer sv cid (some name) cause t (contentKey fixKeySize (some cid) name)))) ↔
      ContentFixed sv n cid name t := by
  unfold ContentFixed
  generalize hall : containerKey addKeySize (some cid) = all
  generalize hkey : contentKey addKeySize (some cid) name = key
  generalize contentKey fixKeySize (some cid) name = fixed
  by_cases hblocked : (t all).isSome = true ∨ (t key).isSome = true
  · -- すでにあり、記録しても変わらない
    have hadd : addContainer sv cid (some name) cause t = t := by
      rw [addContainer, hall]
      by_cases hin : (t all).isSome = true
      · exact if_pos hin
      rw [if_neg hin]
      simp only [hkey]
      exact if_pos (hblocked.resolve_left hin)
    rw [hadd]
    by_cases hsame : key = fixed
    · subst hsame
      rw [tableRestored_same fun _ _ => rfl]
      cases ht : t key with
      | none =>
        have hin : (t all).isSome = true := hblocked.resolve_right (by simp [ht])
        simp [iterate_countdown_none, hin]
      | some r =>
        cases hr : r.isContainer with
        | false =>
          rw [countdown_same hn hr, ofKind_some]
          simp [hr]
        | true => exact iff_of_false (fun hboth => countdown_other hn hr hboth.2) (by simp [hr])
    · rw [if_neg hsame, tableRestored_differ hn (Ne.symm hsame) fun _ _ => rfl]
      simp only [and_true, hblocked]
      exact and_comm
  · -- 新しい record が置かれる
    rw [not_or, not_isSome_iff_eq_none, not_isSome_iff_eq_none] at hblocked
    have hadd : addContainer sv cid (some name) cause t =
        update t key (some (createBrokenContent sv cid (some name) cause)) := by
      rw [addContainer, hall, if_neg (by simp [hblocked.1])]
      simp only [hkey]
      exact if_neg (by simp [hblocked.2])
    have hother : ∀ k, k ≠ key →
        update t key (some (createBrokenContent sv cid (some name) cause)) k = t k :=
      fun k hk => update_of_ne hk _ _
    have hnew : (createBrokenContent sv cid (some name) cause).isContainer = false :=
      isContainer_create_some hname
    rw [hadd, hblocked.1, hblocked.2]
    by_cases hsame : key = fixed
    · subst hsame
      rw [tableRestored_same hother, update_self, countdown_same hn hnew, hblocked.2]
      simp [createBrokenContent]
    rw [if_neg hsame, tableRestored_differ hn (Ne.symm hsame) hother, update_self,
      ofKind_some, if_pos hnew]
    simp

/-! ## container -/

/-- **1 つの META2 の中の container。** -/
theorem container_restored_iff (hn : 0 < n) (cause : Option Bytes) (t : Containers) :
    TableRestored (containerKey addKeySize (some cid)) true t
      (update (addContainer sv cid none cause t) (containerKey fixKeySize (some cid))
        ((countdown contentCounter)^[n]
          (addContainer sv cid none cause t (containerKey fixKeySize (some cid))))) ↔
      ContainerFixed sv n cid t := by
  unfold ContainerFixed
  generalize hkey : containerKey addKeySize (some cid) = key
  generalize containerKey fixKeySize (some cid) = fixed
  cases ht : t key with
  | some r =>
    have hadd : addContainer sv cid none cause t = t := by
      rw [addContainer, hkey]
      exact if_pos (by simp [ht])
    rw [hadd]
    by_cases hsame : key = fixed
    · subst hsame
      rw [if_pos rfl, tableRestored_same fun _ _ => rfl, ht]
      cases hr : r.isContainer with
      | true =>
        rw [countdown_same hn hr, ofKind_some, if_neg (by simp [hr])]
        simp [hr]
      | false => exact iff_of_false (fun hboth => countdown_other hn hr hboth.2) (by simp [hr])
    · rw [if_neg hsame, tableRestored_differ hn (Ne.symm hsame) fun _ _ => rfl, ht, and_comm,
        ofKind_some]
      cases hr : r.isContainer <;> simp [hr]
  | none =>
    -- content が除かれ、container の record が置かれる
    have hadd : addContainer sv cid none cause t =
        update (fun k => (t k).filter fun c => !removeContainer cid c) key
          (some (createBrokenContent sv cid none none)) := by
      rw [addContainer, hkey]
      exact if_neg (by simp [ht])
    have hnew : (createBrokenContent sv cid none none).isContainer = true := rfl
    rw [hadd]
    by_cases hsame : key = fixed
    · subst hsame
      rw [if_pos rfl, update_self, update_idem, TableRestored,
        update_self, countdown_same hn hnew, ht, and_comm]
      refine and_congr ?_ (and_iff_left rfl)
      constructor
      · intro hkeys k c hc
        have hk : k ≠ key := by
          rintro rfl
          rw [ht] at hc
          cases hc
        have hkeep := hkeys k hk
        rw [update_of_ne hk, hc, filter_eq_some_iff] at hkeep
        simpa using hkeep.2
      · intro hkeep k hk
        rw [update_of_ne hk]
        cases hc : t k with
        | none => rfl
        | some c => exact filter_eq_some_iff.mpr ⟨rfl, by simp [hkeep k c hc]⟩
    · rw [if_neg hsame]
      refine iff_of_false (fun hrestored => ?_) (by simp)
      have hnone := hrestored.1.1
      rw [update_of_ne hsame, update_self, ofKind_some, if_pos hnew] at hnone
      cases hnone

/-! ## META2 の中の要素 -/

variable {f : BrokenFields} {a : AddrKey}

theorem fixAll_eq_iff (hn : 0 < n) (haddr : buildAddrInfo einval f.ip f.port = none) :
    (∀ b, ((fixInMeta2 einval f)^[n] h).brokenAt b = h.brokenAt b) ↔
      ∀ b, h.brokenAt b (fixKey f) = none := by
  refine forall_congr' fun b => ?_
  have hscope : inScope einval f b = true := by
    rw [inScope, haddr, ite_self]
    rfl
  rw [(iterate_fixInMeta2 f n h).2 b, if_pos hscope, update_eq_self_iff]
  exact iterate_countdown_eq_self contentCounter hn

theorem iterate_addInMeta2_none (f : BrokenFields) (haddr : buildAddrInfo einval f.ip f.port = none) (n : Nat) :
    (addInMeta2 sv einval f)^[n] h = h := by
  have hid : addInMeta2 sv einval f = id := by
    funext h
    rw [addInMeta2, haddr]
    rfl
  rw [hid, iterate_id, id]

variable {target : Option Slot}

theorem restored_unreadable (f : BrokenFields) (hn : 0 < n)
    (haddr : buildAddrInfo einval f.ip f.port = none) (ht : ∀ a k c, target ≠ some (.entry a k c)) :
    Restored target h ((fixInMeta2 einval f)^[n] ((addInMeta2 sv einval f)^[n] h)) ↔
      Absent target h ∧ ∀ b, h.brokenAt b (fixKey f) = none := by
  rw [iterate_addInMeta2_none _ haddr, restored_node_iff (iterate_fixInMeta2 f n h).1 ht,
    fixAll_eq_iff hn haddr]

theorem restored_entry (f : BrokenFields) (hn : 0 < n)
    (haddr : buildAddrInfo einval f.ip f.port = some a)
    (hcid : f.cid = some cid) {fixed : Containers → Prop}
    (hfixed : ∀ t, TableRestored key c t
      (update (addContainer sv cid f.content f.cause t) (fixKey f)
        ((countdown contentCounter)^[n] (addContainer sv cid f.content f.cause t (fixKey f)))) ↔
      fixed t) :
    Restored (some (.entry a key c)) h
      ((fixInMeta2 einval f)^[n] ((addInMeta2 sv einval f)^[n] h)) ↔
      (f.port = 0 → ∀ b, b ≠ a → h.brokenAt b (fixKey f) = none) ∧
        (h.totallyBroken a = true ∨ fixed (h.brokenAt a)) := by
  obtain ⟨hadd, haddAt⟩ : SameNodes h ((addInMeta2 sv einval f)^[n] h) ∧ _ :=
    iterate_addInMeta2 hn haddr hcid h
  obtain ⟨hfix, hfixAt⟩ : SameNodes _ ((fixInMeta2 einval f)^[n] _) ∧ _ :=
    iterate_fixInMeta2 f n ((addInMeta2 sv einval f)^[n] h)
  rw [restored_entry_iff (hadd.trans hfix), and_comm]
  refine and_congr ?_ ?_
  · -- 他の META2 に届くのは、port が 0 のときだけ
    have hother : ∀ b, b ≠ a → (((fixInMeta2 einval f)^[n]
        ((addInMeta2 sv einval f)^[n] h)).brokenAt b = h.brokenAt b ↔
        (f.port = 0 → h.brokenAt b (fixKey f) = none)) := by
      intro b hb
      have hkept : ((addInMeta2 sv einval f)^[n] h).brokenAt b = h.brokenAt b := by
        rw [haddAt b, if_neg fun hand => hb hand.1]
      rw [hfixAt b, hkept, inScope, haddr]
      by_cases hport : f.port = 0
      · rw [if_pos hport, all_none, if_pos rfl, update_eq_self_iff,
          iterate_countdown_eq_self contentCounter hn]
        simp [hport]
      · rw [if_neg hport, if_neg (by simpa using hb)]
        simp [hport]
    constructor
    · intro hall hport b hb
      exact (hother b hb).mp (hall b hb) hport
    · intro hall b hb
      exact (hother b hb).mpr fun hport => hall hport b hb
  · have hscope : inScope einval f a = true := by
      rw [inScope, haddr]
      split <;> simp
    rw [hfixAt a, if_pos hscope, haddAt a]
    cases hbroken : h.totallyBroken a with
    | false =>
      rw [if_pos ⟨rfl, rfl⟩, hfixed]
      simp
    | true =>
      have hempty := brokenAt_of_totallyBroken hbroken
      rw [if_neg (by simp), hempty, iterate_countdown_none, ← hempty (fixKey f), update_eq_self]
      refine iff_of_true ⟨?_, fun _ _ => rfl⟩ (.inl rfl)
      simp [hempty]

/-! ## META2 -/

theorem totallyBroken_addInMeta2 (haddr : buildAddrInfo einval f.ip f.port = some a)
    (hcid : f.cid = none) (h : BrokenHolder) :
    (addInMeta2 sv einval f h).totallyBroken a = true := by
  rw [addInMeta2, haddr, BrokenHolder.totallyBroken]
  simp only [update_self, any_some, addInBrokenMeta2, hcid, breakMeta2]
  split
  · assumption
  · rfl

theorem not_restored_meta2 {add fix : BrokenHolder → BrokenHolder} (hn : 0 < n)
    (hadd : ∀ h, (add h).totallyBroken a = true)
    (hfix : ∀ h, h.totallyBroken a = true → (fix h).totallyBroken a = true) :
    ¬Restored (some (.meta2 a)) h (fix^[n] (add^[n] h)) := by
  have hadded : (add^[n] h).totallyBroken a = true := by
    obtain ⟨m, rfl⟩ : ∃ m, n = m + 1 := ⟨n - 1, by omega⟩
    rw [iterate_succ_apply']
    exact hadd _
  have hfixed : ∀ m, (fix^[m] (add^[n] h)).totallyBroken a = true := by
    intro m
    induction m with
    | zero => exact hadded
    | succ m ih =>
      rw [iterate_succ_apply']
      exact hfix _ ih
  intro hrestored
  have hnone := hrestored.1 _ rfl
  have hbroken := hfixed n
  rw [totallyBroken_eq, hnone] at hbroken
  cases hbroken

theorem totallyBroken_fixMeta2 (h : BrokenHolder) (hb : h.totallyBroken a = true) :
    (fixMeta2 einval f h).totallyBroken a = true := by
  unfold fixMeta2
  split
  · exact hb
  rename_i b hb'
  split
  · exact hb
  rename_i hother
  have hne : a ≠ b := by
    rintro rfl
    exact hother hb
  rw [BrokenHolder.totallyBroken]
  simp only [update_of_ne hne]
  exact hb

/-! ## META1 -/

/-- 1 つの META1 の置き場への操作 -/
def onMeta1 (b : AddrKey) (g : Option BrokenMeta1 → Option BrokenMeta1) (h : BrokenHolder) :
    BrokenHolder :=
  { h with meta1 := update h.meta1 b (g (h.meta1 b)) }

theorem onMeta1_onMeta1 (b : AddrKey) (g g' : Option BrokenMeta1 → Option BrokenMeta1)
    (h : BrokenHolder) : onMeta1 b g' (onMeta1 b g h) = onMeta1 b (g' ∘ g) h := by
  simp [onMeta1]

theorem iterate_onMeta1 (b : AddrKey) (g : Option BrokenMeta1 → Option BrokenMeta1) (n : Nat)
    (h : BrokenHolder) : (onMeta1 b g)^[n] h = onMeta1 b g^[n] h := by
  induction n with
  | zero => simp [onMeta1]
  | succ n ih => rw [iterate_succ_apply', ih, onMeta1_onMeta1, iterate_succ']

section

variable {b : AddrKey} (haddr : buildAddrInfo einval f.ip f.port = some b)
include haddr

theorem addMeta1_eq : addMeta1 sv einval f = onMeta1 b fun o => o.or (some ⟨sv.meta2Count⟩) := by
  funext h
  rw [addMeta1, haddr, onMeta1]
  cases hm : h.meta1 b with
  | none => simp [hm]
  | some m =>
    simp only [hm, isSome_some, if_true, some_or]
    rw [← hm, update_eq_self]

theorem fixMeta1_eq : fixMeta1 einval f = onMeta1 b (countdown meta1Counter) := by
  funext h
  rw [fixMeta1, haddr]
  rfl

end

theorem restored_onMeta1 (ht : ∀ b, target ≠ some (.meta1 b)) (b : AddrKey)
    (g : Option BrokenMeta1 → Option BrokenMeta1) :
    Restored target h (onMeta1 b g h) ↔ Absent target h ∧ g (h.meta1 b) = h.meta1 b := by
  constructor
  · rintro ⟨hnone, hsame⟩
    refine ⟨fun s hs => ?_, ?_⟩
    · cases s with
      | meta1 b => exact absurd hs (ht b)
      | meta2 b | entry b k c => exact hnone _ hs
    have hslot := hsame (.meta1 b) (ht b)
    simp only [BrokenHolder.record, onMeta1, update_self] at hslot
    exact map_injective (fun _ _ heq => by cases heq; rfl) hslot
  · rintro ⟨habsent, hg⟩
    have hself : onMeta1 b g h = h := by rw [onMeta1, hg, update_eq_self]
    rw [hself]
    exact ⟨habsent, fun _ _ => rfl⟩

theorem restored_meta1 (hn : 0 < n) (ht : ∀ b, target ≠ some (.meta1 b)) :
    Restored target h ((fixMeta1 einval f)^[n] ((addMeta1 sv einval f)^[n] h)) ↔
      Absent target h ∧ ∀ b, buildAddrInfo einval f.ip f.port = some b →
        h.meta1 b = none ∧ sv.meta2Count ≤ n := by
  cases haddr : buildAddrInfo einval f.ip f.port with
  | none =>
    have hadd : addMeta1 sv einval f = id := by
      funext h
      rw [addMeta1, haddr]
      rfl
    have hfix : fixMeta1 einval f = id := by
      funext h
      rw [fixMeta1, haddr]
      rfl
    rw [hadd, hfix, iterate_id, id, id]
    exact ⟨fun hr => ⟨hr.1, nofun⟩, fun ha => ⟨ha.1, fun _ _ => rfl⟩⟩
  | some b =>
    have hidem : ∀ o : Option BrokenMeta1,
        (o.or (some ⟨sv.meta2Count⟩)).or (some ⟨sv.meta2Count⟩) = o.or (some ⟨sv.meta2Count⟩) := by
      intro o
      cases o <;> rfl
    have hiter : (fun o : Option BrokenMeta1 => o.or (some ⟨sv.meta2Count⟩))^[n] (h.meta1 b) =
        (h.meta1 b).or (some ⟨sv.meta2Count⟩) := iterate_of_idem hidem hn _
    rw [addMeta1_eq haddr, fixMeta1_eq haddr, iterate_onMeta1, iterate_onMeta1, onMeta1_onMeta1,
      restored_onMeta1 ht, comp_apply, hiter]
    refine and_congr_right fun _ => ?_
    cases hm : h.meta1 b with
    | none =>
      rw [none_or, iterate_countdown_some meta1Counter hn]
      by_cases hle : sv.meta2Count ≤ n <;> simp [meta1Counter, hm, hle]
    | some m =>
      rw [some_or, iterate_countdown_eq_self meta1Counter hn]
      simp [hm]

/-! ## 主定理 -/

theorem buildAddrInfo_meta1 {ip : Bytes} (hip : strcaseeq ip (ascii "META1") = true) (port : Int) :
    buildAddrInfo einval ip port = none := by
  have hfree : ∀ b, toLower b ∉ (ascii "META1").map toLower → b ∉ ip := by
    intro b hb hmem
    rw [← beq_iff_eq.mp hip] at hb
    exact hb (mem_map_of_mem hmem)
  have hparse : ipParse ip = none := by
    have hhead : ip.head? ≠ some 91 := fun h => hfree 91 (by decide) (mem_of_mem_head? h)
    have hdots : (ip.splitOn 46).length ≠ 4 := by
      rw [length_splitOn, count_eq_zero_of_not_mem (hfree 46 (by decide))]
      decide
    rw [ipParse, if_neg hhead, inetPton4, if_neg hdots]
    rfl
  have hlen : ip.length = 5 := by
    have := congrArg List.length (beq_iff_eq.mp hip)
    rwa [length_map] at this
  unfold buildAddrInfo
  split
  · rfl
  rename_i hport
  have hdigits : 58 ∉ (decInt port).take 249 := by
    rw [decInt, if_neg hport]
    exact fun hmem => colon_notMem_decNat _ (mem_of_mem_take hmem)
  have hbuf : (ip ++ 58 :: decInt port).take 255 = ip ++ 58 :: (decInt port).take 249 := by
    rw [take_append, take_of_length_le (by omega), hlen]
    rfl
  simp only [if_neg (hfree 58 (by decide)), hbuf, gridStringToAddrinfo,
    splitAtLast_append hdigits, bind_some]
  split
  · rfl
  have hip' : ip.take 255 = ip := take_of_length_le (by omega)
  rw [hip', hparse]
  cases portParse einval ((decInt port).take 249) <;> rfl

def Element.add (sv : Services) (einval : Bool) : Element → BrokenHolder → BrokenHolder
  | .meta1 ip port => addInMeta2 sv einval ⟨ascii "META1", atoi ip, token port, none, none⟩
  | .meta2 ip port => addInMeta2 sv einval ⟨ip, atoi port, none, none, none⟩
  | .container ip port cid => fun h =>
    if !strcaseeq ip (ascii "META1") then addMeta1 sv einval ⟨port, atoi cid, none, none, none⟩ h
    else addInMeta2 sv einval ⟨ip, atoi port, token cid, none, none⟩ h
  | .content ip port cid name => addInMeta2 sv einval ⟨ip, atoi port, token cid, token name, none⟩

def Element.fix (einval : Bool) : Element → BrokenHolder → BrokenHolder
  | .meta1 ip port => fixInMeta2 einval ⟨ascii "META1", atoi ip, token port, none, none⟩
  | .meta2 ip port => fixMeta2 einval ⟨ip, atoi port, none, none, none⟩
  | .container ip port cid => fun h =>
    if !strcaseeq ip (ascii "META1") then fixMeta1 einval ⟨port, atoi cid, none, none, none⟩ h
    else fixInMeta2 einval ⟨ip, atoi port, token cid, none, none⟩ h
  | .content ip port cid name => fixInMeta2 einval ⟨ip, atoi port, token cid, token name, none⟩

theorem addElement_text (e : Element) : addElement sv einval e.text = e.add sv einval := by
  funext h
  rw [addElement, e.strsplit_text]
  cases e <;> rfl

theorem fixElement_text (e : Element) : fixElement einval e.text = e.fix einval := by
  funext h
  rw [fixElement, e.strsplit_text]
  cases e <;> rfl

theorem restored_zero (target : Option Slot) : Restored target h h ↔ Absent target h :=
  ⟨fun hr => hr.1, fun ha => ⟨ha, fun _ _ => rfl⟩⟩

theorem restored_meta2_iff (hn : 0 < n) (ip port : Token) :
    Restored ((meta2 ip port).target einval) h ((fixElement einval (meta2 ip port).text)^[n]
        ((addElement sv einval (meta2 ip port).text)^[n] h)) ↔
      Restorable sv einval n h (.meta2 ip port) := by
  rw [addElement_text, fixElement_text, add, fix, Restorable, target]
  cases haddr : addrOf einval ip port with
  | none =>
    have hid : fixMeta2 einval ⟨ip, atoi port, none, none, none⟩ = id := by
      funext h
      rw [addrOf] at haddr
      rw [fixMeta2, haddr]
      rfl
    rw [iterate_addInMeta2_none ⟨ip, atoi port, none, none, none⟩ haddr, hid, iterate_id]
    refine iff_of_true ((restored_zero _).mpr ?_) rfl
    intro s hs
    cases hs
  | some a =>
    exact iff_of_false (not_restored_meta2 hn (totallyBroken_addInMeta2 haddr rfl)
      totallyBroken_fixMeta2) (some_ne_none a)

theorem restored_container_iff (hn : 0 < n) (ip port cid : Token) :
    Restored ((container ip port cid).target einval) h
      ((fixElement einval (container ip port cid).text)^[n]
        ((addElement sv einval (container ip port cid).text)^[n] h)) ↔
      Restorable sv einval n h (.container ip port cid) := by
  rw [addElement_text, fixElement_text, add, fix, Restorable]
  cases hip : strcaseeq ip (ascii "META1") with
  | true =>
    have haddr : buildAddrInfo einval ip (atoi port) = none := buildAddrInfo_meta1 hip _
    refine restored_unreadable ⟨ip, atoi port, token cid, none, none⟩ hn haddr fun a k c heq => ?_
    rw [target, addrOf, haddr] at heq
    cases heq
  | false =>
    refine restored_meta1 hn fun b heq => ?_
    obtain ⟨_, -, heq⟩ := map_eq_some_iff.mp heq
    split at heq <;> cases heq

theorem restored_content_iff (hn : 0 < n) (ip port cid name : Token) :
    Restored ((content ip port cid name).target einval) h
      ((fixElement einval (content ip port cid name).text)^[n]
        ((addElement sv einval (content ip port cid name).text)^[n] h)) ↔
      Restorable sv einval n h (.content ip port cid name) := by
  rw [addElement_text, fixElement_text, add, fix, Restorable, target]
  cases haddr : addrOf einval ip port with
  | none =>
    refine (restored_unreadable ⟨ip, atoi port, token cid, token name, none⟩ hn haddr
      fun _ _ _ heq => ?_).trans (and_iff_right fun _ heq => ?_) <;> cases heq
  | some a =>
    rw [map_some]
    by_cases hcid : cid.1 = []
    · -- 空の cid は META2 の全体を壊す
      have htoken : token cid = none := by simp [token, hcid]
      rw [if_pos hcid]
      refine iff_of_false ?_ fun hr => hr.1 hcid
      exact not_restored_meta2 hn (totallyBroken_addInMeta2 haddr htoken) fun h hb =>
        ((sameNodes_fixInMeta2 _ h).totallyBroken a).trans hb
    have htoken : token cid = some cid.1 := by simp [token, hcid]
    rw [if_neg hcid]
    refine Iff.trans ?_ (and_iff_right hcid).symm
    by_cases hname : name.1 = []
    · have hnone : token name = none := by simp [token, hname]
      rw [if_pos hname, if_pos hname, hnone, htoken]
      exact restored_entry ⟨ip, atoi port, some cid, none, none⟩ hn haddr rfl
        fun t => container_restored_iff hn none t
    have hsome : token name = some name.1 := by simp [token, hname]
    rw [if_neg hname, if_neg hname, hsome, htoken]
    exact restored_entry ⟨ip, atoi port, some cid, some name, none⟩ hn haddr rfl
      fun t => content_restored_iff hn hname none t

/-- **記録して直した要素が無くなり、他が変わらないのは条件を満たすとき。** -/
theorem restored_iff (sv : Services) (einval : Bool) (h : BrokenHolder) (e : Element) (n : Nat) :
    Restored (e.target einval) h (addFix sv einval e n h) ↔
      if n = 0 then Absent (e.target einval) h else Restorable sv einval n h e := by
  by_cases hzero : n = 0
  · rw [if_pos hzero, hzero]
    exact restored_zero _
  have hn : 0 < n := Nat.pos_of_ne_zero hzero
  rw [if_neg hzero, addFix]
  cases e with
  | meta1 ip port =>
    have hself : strcaseeq (ascii "META1") (ascii "META1") = true := by decide
    rw [addElement_text, fixElement_text, add, fix]
    refine restored_unreadable _ hn (buildAddrInfo_meta1 hself _) fun a k c heq => ?_
    obtain ⟨_, -, heq⟩ := map_eq_some_iff.mp heq
    cases heq
  | meta2 ip port => exact restored_meta2_iff hn ip port
  | container ip port cid => exact restored_container_iff hn ip port cid
  | content ip port cid name => exact restored_content_iff hn ip port cid name

def emptyHolder : BrokenHolder := ⟨fun _ => none, fun _ => none⟩

/-- META2 は 1 回ずつ記録して直しても、壊れたまま -/
theorem meta2_stays_broken :
    ¬Restored ((Element.meta2 ⟨ascii "1.2.3.4", by decide⟩ ⟨ascii "80", by decide⟩).target false)
      emptyHolder (addFix ⟨some 3, some 1⟩ false
        (.meta2 ⟨ascii "1.2.3.4", by decide⟩ ⟨ascii "80", by decide⟩) 1 emptyHolder) := by
  intro hrestored
  have hnone := hrestored.1 (.meta2 (.v4, 80, [1, 2, 3, 4])) (by decide +kernel)
  exact absurd hnone (by decide +kernel)

end Redcurrant.Conscience
