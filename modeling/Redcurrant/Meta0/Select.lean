import Redcurrant.Meta0.PrefixAssign

/-!
# 記録と候補

`initAssign` が作る記録と、`_select_dest_assign_m1` が選ぶ候補。
-/

namespace Redcurrant.Meta0

open Infra Metautils List

structure Meta1List where
  services : List ServiceInfo
  wf : ∀ s ∈ services, s.addr.Wf

/-! ## 番地の文字列 -/

theorem length_decNat_port {n : Nat} (h : n < 65536) : (decNat n).length ≤ 5 := by
  rw [decNat, length_map]
  exact Nat.length_toDigits_le_iff (by decide) (by decide) |>.mpr (by omega)

theorem length_addrText_le {a : AddrInfo} (h : a.Wf) : (addrText a).length ≤ 127 := by
  have hport := length_decNat_port h.port_lt
  have hip : (ipText a.type a.addr).length ≤ 102 := by
    obtain ⟨type, addr, port, protocol⟩ := a
    have hlen : addr.length = type.size := h.length_eq
    cases type with
    | v4 =>
      have := length_inetNtop4_le (a := addr)
      rw [hlen] at this
      exact this.trans (by decide)
    | v6 =>
      have := length_inetNtop6_le (a := addr) hlen
      simp only [ipText, length_cons, length_append, length_nil]
      omega
  rw [addrText, length_append, length_cons]
  omega

theorem gridAddrinfoToString_eq {a : AddrInfo} (h : a.Wf) : gridAddrinfoToString a 128 = addrText a :=
  take_of_length_le (length_addrText_le h)

theorem exists_l4AddressHost {a : AddrInfo} (h : a.Wf) :
    ∃ host, l4AddressHost (addrText a) = some host := by
  have hlen := length_addrText_le h
  rw [l4AddressHost, take_of_length_le (by omega), splitAtLast_addrText]
  exact ⟨_, rfl⟩

@[simp] theorem startsCase_self (s : Bytes) : startsCase s s = true := by simp [startsCase]

/-! ## 記録 -/

/-- 記録の列が service の列から作られたもの -/
structure Records (services : List ServiceInfo) (σ : AssignState) : Prop where
  count_eq : σ.count = services.length
  addr_eq : ∀ i, (σ.meta1 i).addr = ((services[i]?).map fun s => addrText s.addr).getD []
  live : ∀ {i j}, i < σ.count → j < σ.count → (σ.meta1 i).freed = false →
    (σ.meta1 j).freed = false → (σ.meta1 i).addr = (σ.meta1 j).addr → i = j
  exists_live : ∀ i < σ.count, ∃ j < σ.count, (σ.meta1 j).freed = false ∧
    (σ.meta1 j).addr = (σ.meta1 i).addr

variable {σ σ' : AssignState} {i j : Nat} {l : List AssignMeta1} {s : Option Bytes}
  {force unref : Bool} {urls : List Bytes}

theorem Records.mem {services : List ServiceInfo} (h : Records services σ) (hi : i < σ.count) :
    ∃ s ∈ services, (σ.meta1 i).addr = addrText s.addr := by
  rw [h.count_eq] at hi
  refine ⟨services[i], getElem_mem hi, ?_⟩
  rw [h.addr_eq, getElem?_eq_getElem hi]
  rfl

theorem Records.congr {services : List ServiceInfo} (h : Records services σ)
    (hcount : σ'.count = σ.count) (haddr : ∀ i, (σ'.meta1 i).addr = (σ.meta1 i).addr)
    (hfreed : ∀ i, (σ'.meta1 i).freed = (σ.meta1 i).freed) : Records services σ' := by
  constructor
  · rw [hcount, h.count_eq]
  · intro i
    rw [haddr, h.addr_eq]
  · intro i j hi hj
    rw [hcount] at hi hj
    rw [haddr, haddr, hfreed, hfreed]
    exact h.live hi hj
  · intro i hi
    rw [hcount] at hi
    obtain ⟨j, hj, hlive, heq⟩ := h.exists_live i hi
    exact ⟨j, hcount ▸ hj, by rw [hfreed, hlive], by rw [haddr, haddr, heq]⟩

section

variable (refs : List (Bytes × Bool))

theorem addr_initRecord (infos : List Meta0Info) (s : ServiceInfo) :
    (initRecord refs infos s).1.addr = gridAddrinfoToString s.addr 128 := by
  unfold initRecord
  split <;> rfl

theorem map_addr_initRecords : ∀ (services : List ServiceInfo) (infos : List Meta0Info),
    (initRecords refs infos services).1.map (·.addr) =
      services.map fun s => gridAddrinfoToString s.addr 128
  | [], _ => rfl
  | s :: rest, infos => by
    rw [initRecords, map_cons, map_cons, map_addr_initRecords rest, addr_initRecord]

theorem pairwise_initRecords : ∀ (services : List ServiceInfo) (infos : List Meta0Info),
    (initRecords refs infos services).1.Pairwise fun a b => a.addr = b.addr → a.freed = true
  | [], _ => .nil
  | s :: rest, infos => by
    refine pairwise_cons.mpr ⟨fun b hb heq => ?_, pairwise_initRecords rest _⟩
    exact any_eq_true.mpr ⟨b, hb, by simpa using heq.symm⟩

theorem exists_live_initRecords : ∀ (services : List ServiceInfo) (infos : List Meta0Info),
    ∀ a ∈ (initRecords refs infos services).1, ∃ b ∈ (initRecords refs infos services).1,
      b.freed = false ∧ b.addr = a.addr
  | [], _ => by simp [initRecords]
  | s :: rest, infos => by
    intro a ha
    rw [initRecords] at ha ⊢
    have htail : ∀ a ∈ (initRecords refs (initRecord refs infos s).2 rest).1,
        ∃ b ∈ (initRecords refs (initRecord refs infos s).2 rest).1,
          b.freed = false ∧ b.addr = a.addr :=
      exists_live_initRecords rest _
    rcases mem_cons.mp ha with rfl | ha
    · cases hfreed : (initRecords refs (initRecord refs infos s).2 rest).1.any
          (·.addr == (initRecord refs infos s).1.addr) with
      | false => exact ⟨_, mem_cons_self, rfl, rfl⟩
      | true =>
        obtain ⟨c, hc, heq⟩ := any_eq_true.mp hfreed
        obtain ⟨b, hb, hlive, hb'⟩ := htail c hc
        exact ⟨b, mem_cons_of_mem _ hb, hlive, hb'.trans (beq_iff_eq.mp heq)⟩
    · obtain ⟨b, hb, h⟩ := htail a ha
      exact ⟨b, mem_cons_of_mem _ hb, h⟩

end

theorem recordAt_mem (h : i < l.length) : recordAt l i ∈ l := by
  rw [recordAt, getD_eq_getElem?_getD, getElem?_eq_getElem h]
  exact getElem_mem h

theorem exists_recordAt {a : AssignMeta1} (h : a ∈ l) : ∃ i < l.length, recordAt l i = a := by
  obtain ⟨i, hi, rfl⟩ := mem_iff_getElem.mp h
  exact ⟨i, hi, by rw [recordAt, getD_eq_getElem?_getD, getElem?_eq_getElem hi]; rfl⟩

/-- **始めの状態の記録は service の列から作られる。** -/
theorem records_startState (services : Meta1List) (refs : List (Bytes × Bool))
    (infos : List Meta0Info) (array : PrefixArray) (avgscore : Nat) :
    Records services.services
      (startState array (initRecords refs infos services.services).1 avgscore) := by
  have hmap := map_addr_initRecords refs services.services infos
  have hpair := pairwise_initRecords refs services.services infos
  have hlive := exists_live_initRecords refs services.services infos
  generalize (initRecords refs infos services.services).1 = l at hmap hpair hlive
  have hlen : l.length = services.services.length := by
    rw [← length_map (f := fun a : AssignMeta1 => a.addr), hmap, length_map]
  have hdup : ∀ {i j}, i < j → j < l.length → (recordAt l i).addr = (recordAt l j).addr →
      (recordAt l i).freed = true := by
    intro i j hij hj heq
    have := pairwise_iff_getElem.mp hpair i j (by omega) hj hij
    simp only [recordAt, getD_eq_getElem?_getD, getElem?_eq_getElem hj,
      getElem?_eq_getElem (Nat.lt_trans hij hj), Option.getD_some] at heq ⊢
    exact this heq
  refine ⟨hlen, fun i => ?_, fun {i j} hi hj hfi hfj heq => ?_, fun i hi => ?_⟩
  · have hi := congrArg (fun l : List Bytes => l[i]?) hmap
    simp only [getElem?_map] at hi
    change (recordAt l i).addr = _
    rw [recordAt, getD_eq_getElem?_getD]
    cases hs : services.services[i]? with
    | none =>
      rw [hs] at hi
      rw [Option.map_eq_none_iff.mp hi]
      rfl
    | some s =>
      rw [hs, Option.map_some, gridAddrinfoToString_eq (services.wf s (mem_of_getElem? hs))] at hi
      obtain ⟨r, hr, hi⟩ := Option.map_eq_some_iff.mp hi
      rw [hr]
      exact hi
  · change (recordAt l i).addr = (recordAt l j).addr at heq
    change (recordAt l i).freed = false at hfi
    change (recordAt l j).freed = false at hfj
    rcases Nat.lt_trichotomy i j with hij | rfl | hij
    · rw [hdup hij hj heq] at hfi
      cases hfi
    · rfl
    · rw [hdup hij hi heq.symm] at hfj
      cases hfj
  · obtain ⟨b, hb, hfreed, haddr⟩ := hlive _ (recordAt_mem hi)
    obtain ⟨j, hj, rfl⟩ := exists_recordAt hb
    exact ⟨j, hj, hfreed, haddr⟩

theorem mem_workingOf (h : i ∈ workingOf l) : i < l.length ∧ (recordAt l i).used = true := by
  simpa [workingOf] using h

/-! ## 候補 -/

/-- 候補 `d` は替えられる META1 のほかの URL とぶつからない -/
def Accepted (urls : List Bytes) (s : Option Bytes) (d : Bytes) (force : Bool) : Prop :=
  ∀ u ∈ urls, (s.any fun s => startsCase s u) = false → startsCase d u = false ∧
    (s = none → force = false → ∀ host dhost, l4AddressHost u = some host →
      l4AddressHost d = some dhost → startsCase dhost host = false)

theorem accepted_of_scanUrls {d : Bytes} :
    ∀ {urls : List Bytes} {loop : Bool}, scanUrls s d force loop urls = some false →
      Accepted urls s d force
  | [], _, _ => by simp [Accepted]
  | u :: rest, loop, h => by
    rw [scanUrls] at h
    split at h
    · rename_i hskip
      refine forall_mem_cons.mpr ⟨fun hno => ?_, accepted_of_scanUrls h⟩
      rw [hskip] at hno
      cases hno
    split at h
    · cases h
    rename_i hd
    rw [Bool.not_eq_true] at hd
    split at h
    · rename_i hhost
      refine forall_mem_cons.mpr ⟨fun _ => ⟨hd, fun _ _ host dhost h' => ?_⟩,
        accepted_of_scanUrls h⟩
      rw [hhost] at h'
      cases h'
    rename_i host hhost
    split at h
    · cases h
    rename_i dhost hdhost
    split at h
    · cases h
    rename_i hclash
    refine forall_mem_cons.mpr ⟨fun _ => ⟨hd, fun hs hforce host' dhost' h1 h2 => ?_⟩,
      accepted_of_scanUrls h⟩
    rw [hhost, Option.some.injEq] at h1
    rw [hdhost, Option.some.injEq] at h2
    subst hs h1 h2 hforce
    simpa using hclash

theorem accepted_of_rejects {d : Bytes} (h : rejects urls s d force = some false) :
    Accepted urls s d force := by
  rw [rejects] at h
  split at h
  · rename_i hempty
    rw [isEmpty_iff.mp hempty]
    simp [Accepted]
  · exact accepted_of_scanUrls h

theorem Accepted.notMem {d : Bytes} (h : Accepted urls s d force)
    (hs : (s.any fun s => startsCase s d) = false) : d ∉ urls := by
  intro hd
  have := (h d hd hs).1
  rw [startsCase_self] at this
  cases this

theorem selectDestFrom_eq_some : ∀ {l : List Nat},
    selectDestFrom σ urls s unref force l = some (some j) →
      j ∈ l ∧ (σ.meta1 j).freed = false ∧ (unref = false → (σ.meta1 j).score < σ.avgscore) ∧
      Accepted urls s (σ.meta1 j).addr force
  | [], h => by simp [selectDestFrom] at h
  | i :: rest, h => by
    rw [selectDestFrom] at h
    split at h
    · simp at h
    rename_i hscore
    split at h
    · cases h
    rename_i hfreed
    obtain ⟨loop, hloop, h⟩ := Option.bind_eq_some_iff.mp h
    cases loop with
    | true =>
      obtain ⟨hmem, hrest⟩ := selectDestFrom_eq_some (l := rest) h
      exact ⟨mem_cons_of_mem _ hmem, hrest⟩
    | false =>
      cases h
      refine ⟨mem_cons_self, by simpa using hfreed, fun hunref => ?_, accepted_of_rejects hloop⟩
      by_contra hle
      exact hscore ⟨by omega, hunref⟩

/-- **選ばれた候補。** -/
theorem selectDestAssignM1_eq_some {p : Nat}
    (h : selectDestAssignM1 σ s p unref force = some (some j)) :
    j ∈ σ.working ∧ (σ.meta1 j).freed = false ∧
      (unref = false → (σ.meta1 j).score < σ.avgscore) ∧
      Accepted (σ.array p) s (σ.meta1 j).addr force := by
  rw [selectDestAssignM1] at h
  split at h
  · cases h
  · obtain ⟨hmem, hrest⟩ := selectDestFrom_eq_some h
    exact ⟨mem_reverse.mp hmem, hrest⟩

theorem mem_sortByScore {meta1 : Nat → AssignMeta1} {l : List Nat} :
    i ∈ sortByScore meta1 l ↔ i ∈ l := (mergeSort_perm l _).mem_iff

/-! ## 候補があれば見つかること -/

/-- 求める候補。prefix を受け持たず、残る META1 と host が異なり、均すときは score が平均より低い。 -/
structure Eligible (σ : AssignState) (s : Option Bytes) (p : Nat) (unref force : Bool) (j : Nat) :
    Prop where
  listed : j ∈ σ.working
  manages : (σ.meta1 j).addr ∉ σ.array p
  host : force = false → ∀ u ∈ σ.array p, s ≠ some u →
    l4AddressHost u ≠ l4AddressHost (σ.meta1 j).addr
  low : unref = false → (σ.meta1 j).score < σ.avgscore

/-- score の高い順の list で、記録は生きていて番地は host と port に分かれる -/
structure Searchable (σ : AssignState) : Prop where
  sorted : σ.working.Pairwise fun i k => (σ.meta1 k).score ≤ (σ.meta1 i).score
  live : ∀ i ∈ σ.working, (σ.meta1 i).freed = false ∧ (l4AddressHost (σ.meta1 i).addr).isSome

/-- 候補 `d` を妨げる URL -/
def blocks (s : Option Bytes) (d : Bytes) (force : Bool) (u : Bytes) : Bool :=
  !(s.any fun s => startsCase s u) && (startsCase d u || (l4AddressHost u).any fun host =>
    (l4AddressHost d).any fun dhost => startsCase dhost host &&
      !((s.bind l4AddressHost).any fun shost => startsCase shost host) && !force)

/-- `loop` を下ろさない URL。替えられる META1 の番地で始まるか、host と port に分かれない。 -/
def idles (s : Option Bytes) (u : Bytes) : Bool :=
  (s.any fun s => startsCase s u) || (l4AddressHost u).isNone

/-- 候補 `d` を妨げる URL が無く、URL が無いか、`loop` を下ろす URL がある -/
def Free (urls : List Bytes) (s : Option Bytes) (d : Bytes) (force : Bool) : Prop :=
  urls = [] ∨ (∀ u ∈ urls, blocks s d force u = false) ∧ ∃ u ∈ urls, idles s u = false

/-- 断られるのは妨げる URL があるか、どの URL も `loop` を下ろさないとき -/
theorem scanUrls_eq {d : Bytes} (hd : (l4AddressHost d).isSome) :
    ∀ {loop : Bool} {urls : List Bytes}, scanUrls s d force loop urls =
      some (urls.any (blocks s d force) || loop && urls.all (idles s))
  | loop, [] => by simp [scanUrls]
  | loop, url :: rest => by
    obtain ⟨dhost, hdhost⟩ := Option.isSome_iff_exists.mp hd
    rw [scanUrls, any_cons, all_cons, blocks, idles, hdhost]
    cases s.any fun s => startsCase s url with
    | true => simpa using scanUrls_eq hd
    | false =>
      cases startsCase d url with
      | true => simp
      | false =>
        cases hhost : l4AddressHost url with
        | none => simpa using scanUrls_eq hd
        | some host =>
          -- 読めて妨げない URL が `loop` を下ろす
          simp only [Bool.false_eq_true, if_false, Option.any_some]
          split
          · next hclash => simp [hclash]
          · next hclash => simp [hclash, scanUrls_eq hd]

theorem rejects_iff {d : Bytes} (hd : (l4AddressHost d).isSome) :
    ∃ loop, rejects urls s d force = some loop ∧ (loop = false ↔ Free urls s d force) := by
  unfold rejects
  split
  · next hempty => exact ⟨_, rfl, iff_of_true rfl (.inl (isEmpty_iff.mp hempty))⟩
  · next hne =>
    refine ⟨_, scanUrls_eq hd, ?_⟩
    rw [List.isEmpty_iff] at hne
    simp [Free, hne]

theorem selectDestFrom_finds_iff : ∀ {l : List Nat},
    l.Pairwise (fun i k => (σ.meta1 i).score ≤ (σ.meta1 k).score) →
    (∀ i ∈ l, (σ.meta1 i).freed = false ∧ (l4AddressHost (σ.meta1 i).addr).isSome) →
    ((∃ i, selectDestFrom σ urls s unref force l = some (some i)) ↔
      ∃ k ∈ l, (unref = false → (σ.meta1 k).score < σ.avgscore) ∧
        Free urls s (σ.meta1 k).addr force)
  | [], _, _ => by simp [selectDestFrom]
  | i :: rest, hsorted, hlive => by
    obtain ⟨hle, hsorted⟩ := pairwise_cons.mp hsorted
    obtain ⟨⟨hfreed, hhost⟩, hlive⟩ := forall_mem_cons.mp hlive
    obtain ⟨loop, hloop, hfree⟩ := @rejects_iff s force urls _ hhost
    rw [selectDestFrom]
    by_cases hhigh : σ.avgscore ≤ (σ.meta1 i).score ∧ unref = false
    · -- 後の候補の score も平均に届く
      rw [if_pos hhigh]
      refine iff_of_false (by simp) ?_
      rintro ⟨k, hk, hlow, -⟩
      have hlow := hlow hhigh.2
      rcases mem_cons.mp hk with rfl | hk
      · omega
      · have := hle k hk
        omega
    rw [if_neg hhigh, hfreed, hloop]
    cases loop with
    | false =>
      refine iff_of_true ⟨i, rfl⟩ ⟨i, mem_cons_self, fun hunref => ?_, hfree.mp rfl⟩
      by_contra hscore
      exact hhigh ⟨by omega, hunref⟩
    | true =>
      have hno : ¬ Free urls s (σ.meta1 i).addr force := fun h => by cases hfree.mpr h
      rw [exists_mem_cons_iff]
      simpa [hno] using selectDestFrom_finds_iff hsorted hlive

/-- **求める候補があれば選ばれるのは、score の足りる META1 のどれかを妨げる URL が無く、URL が無いか、替えられる
META1 のものでない読める URL があるとき。** -/
theorem selectDestAssignM1_finds_iff {p : Nat} (hσ : Searchable σ) :
    ((∃ j, Eligible σ s p unref force j) →
        ∃ i, selectDestAssignM1 σ s p unref force = some (some i)) ↔
      ((∃ j, Eligible σ s p unref force j) →
        ∃ k ∈ σ.working, (unref = false → (σ.meta1 k).score < σ.avgscore) ∧
          Free (σ.array p) s (σ.meta1 k).addr force) := by
  refine forall_congr' fun ⟨j, hj⟩ => ?_
  rw [selectDestAssignM1, if_neg (by simpa using ne_nil_of_mem hj.listed), selectDestFrom_finds_iff
    (pairwise_reverse.mpr hσ.sorted) fun i hi => hσ.live i (mem_reverse.mp hi)]
  simp only [mem_reverse]

/-- 止められた META1 と、prefix を持たない META1 -/
def pairState (urls : List Bytes) : AssignState :=
  startState (fun _ => urls) [⟨ascii "10.0.0.1:6000", 1, false, false, some [0], false⟩,
    ⟨ascii "10.0.0.2:6000", 0, false, true, none, false⟩] 1

/-- `10.0.0.20:6000` は `10.0.0.2:6000` を妨げない -/
theorem selectDestAssignM1_finds_pairState :
    ∃ i, selectDestAssignM1 (pairState [ascii "10.0.0.1:6000", ascii "10.0.0.20:6000"])
      (some (ascii "10.0.0.1:6000")) 0 true true = some (some i) := by
  refine (selectDestAssignM1_finds_iff ⟨by decide, by decide +kernel⟩).mpr (fun _ => ?_)
    ⟨1, by decide, by decide +kernel, nofun, nofun⟩
  exact ⟨1, by decide, nofun, .inr (by decide +kernel)⟩

/-- **複製が 1 つなら、候補があっても選ばれない。** -/
theorem lone_replica_not_replaced : Searchable (pairState [ascii "10.0.0.1:6000"]) ∧
    Eligible (pairState [ascii "10.0.0.1:6000"]) (some (ascii "10.0.0.1:6000")) 0 true true 1 ∧
    selectDestAssignM1 (pairState [ascii "10.0.0.1:6000"]) (some (ascii "10.0.0.1:6000")) 0 true
      true = some none :=
  ⟨⟨by decide, by decide +kernel⟩, ⟨by decide, by decide +kernel, nofun, nofun⟩, by decide +kernel⟩

end Redcurrant.Meta0
