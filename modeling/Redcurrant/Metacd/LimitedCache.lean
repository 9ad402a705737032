import Mathlib.Data.List.DropRight
import Mathlib.Data.List.Nodup
import Redcurrant.Infra.Loop
import Redcurrant.Infra.Run

/-!
# metacd の cache

要素は使った順の環、hash table、要素の数に現れる。source の pointer は `id` で表す。
-/

namespace Redcurrant.Metacd

open Infra List

variable {K V : Type} [DecidableEq K]

/-- `struct limited_cache_element_s` -/
structure Element (K V : Type) where
  id : Nat
  k : K
  v : V
  dateAccess : Int
  deriving DecidableEq

/-- `struct limited_cache_s`。`nextId` は次に作る要素の `id`。 -/
structure LimitedCache (K V : Type) where
  expiration : Int
  noatime : Bool
  (limit size : Int)
  ht : List (K × Nat)
  ring : List (Element K V)
  nextId : Nat

namespace LimitedCache

/-- `limited_cache_create` -/
def create (limit expiration : Int) (noatime : Bool) : LimitedCache K V :=
  ⟨expiration, noatime, limit, 0, [], [], 0⟩

/-! ## 部品 -/

variable (lc : LimitedCache K V)

/-- `g_hash_table_lookup` -/
def lookup (k : K) : Option (Element K V) :=
  (lc.ht.find? fun p => p.1 == k).bind fun p => lc.ring.find? fun e => e.id == p.2

/-- `UNCHECKED_remove_element` -/
def removeElement (e : Element K V) : LimitedCache K V :=
  { lc with
    ring := lc.ring.filter fun x => x.id != e.id
    ht := if (lc.lookup e.k).map Element.id = some e.id then lc.ht.filter fun p => p.1 != e.k
      else lc.ht
    size := lc.size - 1 }

/-- `UNCHECKED_pop_last` -/
def popLast : Option (LimitedCache K V) := lc.ring.getLast?.map lc.removeElement

/-- `UNCHECKED_pop_if_older` -/
def popIfOlder (needle : Int) : Option (LimitedCache K V) :=
  lc.ring.getLast?.bind fun e => if needle ≤ e.dateAccess then none else some (lc.removeElement e)

variable {lc} {lc' : LimitedCache K V}

theorem length_removeElement_lt {e : Element K V} (h : e ∈ lc.ring) :
    (lc.removeElement e).ring.length < lc.ring.length :=
  length_filter_lt_length_iff_exists.mpr ⟨e, h, by simp⟩

def limitTurn (lc : LimitedCache K V) : Turn (LimitedCache K V) Unit :=
  if lc.limit < lc.size then
    match lc.popLast with
    | none => .stop lc ()
    | some lc' => .again lc'
  else .stop lc ()

/-- 古い間、末尾を捨てる -/
def olderTurn (needle : Int) (lc : LimitedCache K V) : Turn (LimitedCache K V) Unit :=
  match lc.popIfOlder needle with
  | none => .stop lc ()
  | some lc' => .again lc'

theorem limitTurn_again (h : lc.limitTurn = .again lc') :
    lc.limit < lc.size ∧ ∃ init e, lc.ring = init ++ [e] ∧ lc' = lc.removeElement e := by
  unfold limitTurn popLast at h
  split at h
  · rename_i hlt
    rcases eq_nil_or_concat' lc.ring with hnil | ⟨init, e, hring⟩
    · rw [hnil] at h
      cases h
    rw [hring, getLast?_concat] at h
    cases h
    exact ⟨hlt, init, e, hring, rfl⟩
  · cases h

theorem olderTurn_again {needle : Int} (h : lc.olderTurn needle = .again lc') :
    ∃ init e, lc.ring = init ++ [e] ∧ e.dateAccess < needle ∧ lc' = lc.removeElement e := by
  unfold olderTurn popIfOlder at h
  rcases eq_nil_or_concat' lc.ring with hnil | ⟨init, e, hring⟩
  · rw [hnil] at h
    cases h
  rw [hring, getLast?_concat, Option.bind_some] at h
  split at h
  · cases h
  rename_i lc1 hpop
  cases h
  split at hpop
  · cases hpop
  · rename_i hold
    exact ⟨init, e, hring, Int.not_le.mp hold, (Option.some.inj hpop).symm⟩

theorem limitTurn_lt (h : lc.limitTurn = .again lc') : lc'.ring.length < lc.ring.length := by
  obtain ⟨-, init, e, hring, rfl⟩ := limitTurn_again h
  exact length_removeElement_lt (hring ▸ mem_append_right _ (mem_singleton_self e))

theorem olderTurn_lt {needle : Int} (h : lc.olderTurn needle = .again lc') :
    lc'.ring.length < lc.ring.length := by
  obtain ⟨init, e, hring, -, rfl⟩ := olderTurn_again h
  exact length_removeElement_lt (hring ▸ mem_append_right _ (mem_singleton_self e))

variable (lc) (now : Int)

def cleanLimit : LimitedCache K V := (loop limitTurn (fun lc => lc.ring.length) limitTurn_lt lc).1

def cleanOlder (needle : Int) : LimitedCache K V :=
  (loop (olderTurn needle) (fun lc => lc.ring.length) olderTurn_lt lc).1

/-! ## 呼び出し -/

/-- `_lc_clean` -/
def clean : LimitedCache K V :=
  let needle := if 0 < lc.expiration then now - lc.expiration else 0
  let lc := if 0 < lc.limit then lc.cleanLimit else lc
  if 0 ≤ lc.expiration then lc.cleanOlder needle else lc

/-- `limited_cache_put` -/
def put (k : K) (v : V) : LimitedCache K V :=
  let lc := match lc.lookup k with
    | none => lc
    | some old => lc.removeElement old
  let e : Element K V := ⟨lc.nextId, k, v, now⟩
  let lc := { lc with
    ht := (k, e.id) :: lc.ht.filter fun p => p.1 != k
    ring := e :: lc.ring
    nextId := lc.nextId + 1
    size := lc.size + 1 }
  lc.clean now

/-- `limited_cache_lookup` -/
def find (k : K) : LimitedCache K V × Option V :=
  match lc.lookup k with
  | none => (lc, none)
  | some e =>
    if e.dateAccess < now - lc.expiration then (lc.removeElement e, none)
    else if lc.noatime then (lc, some e.v)
    else
      ({ lc with
        ring := { e with dateAccess := now } :: lc.ring.filter fun x => x.id != e.id },
        some e.v)

/-- `limited_cache_get` -/
def get (k : K) : LimitedCache K V × Option V := lc.find now k

/-- `limited_cache_has`。答えは期限を見る前の hash table で決まる。 -/
def has (k : K) : LimitedCache K V × Bool × Option V :=
  ((lc.find now k).1, (lc.lookup k).isSome, (lc.find now k).2)

/-- `limited_cache_del` -/
def del (k : K) : LimitedCache K V :=
  match lc.lookup k with
  | none => lc
  | some e => lc.removeElement e

/-- `limited_cache_flush` -/
def flush : LimitedCache K V :=
  { ({ lc with expiration := 0 } : LimitedCache K V).clean now with expiration := lc.expiration }

/-- `limited_cache_set_limit` -/
def setLimit (s : Int) : LimitedCache K V := { lc with limit := if 0 < s then s else 0 }

/-- 数の上限が残す要素 -/
def keptByLimit : List (Element K V) :=
  if 0 < lc.limit then lc.ring.take lc.limit.toNat else lc.ring

/-! ## 環と hash table -/

variable {lc}

/-- 環と hash table は同じ要素を持ち、key も `id` も重ならない -/
structure Wf (lc : LimitedCache K V) : Prop where
  ht : lc.ht.Perm (lc.ring.map fun e => (e.k, e.id))
  keys : (lc.ring.map Element.k).Nodup
  ids : (lc.ring.map Element.id).Nodup
  fresh : ∀ e ∈ lc.ring, e.id < lc.nextId
  size : lc.size = lc.ring.length

namespace Wf

variable {e e' : Element K V} {k : K}

omit [DecidableEq K] in
theorem eq_of_k (h : lc.Wf) (he : e ∈ lc.ring) (he' : e' ∈ lc.ring) (hk : e.k = e'.k) : e = e' :=
  inj_on_of_nodup_map h.keys he he' hk

omit [DecidableEq K] in
theorem eq_of_id (h : lc.Wf) (he : e ∈ lc.ring) (he' : e' ∈ lc.ring) (hid : e.id = e'.id) :
    e = e' :=
  inj_on_of_nodup_map h.ids he he' hid

theorem lookup_eq_some (h : lc.Wf) : lc.lookup k = some e ↔ e ∈ lc.ring ∧ e.k = k := by
  constructor
  · intro hlookup
    obtain ⟨p, hp, hfind⟩ := Option.bind_eq_some_iff.mp hlookup
    have hmem : e ∈ lc.ring := mem_of_find?_eq_some hfind
    have hid : e.id = p.2 := by simpa using find?_some hfind
    obtain ⟨e', he', rfl⟩ := mem_map.mp (h.ht.subset (mem_of_find?_eq_some hp))
    have hk : e'.k = k := by simpa using find?_some hp
    rw [h.eq_of_id hmem he' hid]
    exact ⟨he', hk⟩
  · rintro ⟨hmem, rfl⟩
    have hin : (e.k, e.id) ∈ lc.ht := h.ht.symm.subset (mem_map_of_mem hmem)
    obtain ⟨p, hp⟩ : ∃ p, lc.ht.find? (fun p => p.1 == e.k) = some p :=
      Option.isSome_iff_exists.mp (find?_isSome.mpr ⟨_, hin, by simp⟩)
    obtain ⟨e', he', rfl⟩ := mem_map.mp (h.ht.subset (mem_of_find?_eq_some hp))
    have hk : e'.k = e.k := by simpa using find?_some hp
    obtain rfl := h.eq_of_k he' hmem hk
    obtain ⟨e'', he''⟩ : ∃ x, lc.ring.find? (fun x => x.id == e'.id) = some x :=
      Option.isSome_iff_exists.mp (find?_isSome.mpr ⟨_, hmem, by simp⟩)
    have hid : e''.id = e'.id := by simpa using find?_some he''
    rw [lookup, hp, Option.bind_some, he'', h.eq_of_id (mem_of_find?_eq_some he'') hmem hid]

theorem lookup_eq_none (h : lc.Wf) : lc.lookup k = none ↔ ∀ e ∈ lc.ring, e.k ≠ k := by
  constructor
  · intro hnone e he hk
    rw [h.lookup_eq_some.mpr ⟨he, hk⟩] at hnone
    cases hnone
  · intro hne
    cases hlookup : lc.lookup k with
    | none => rfl
    | some e =>
      obtain ⟨he, hk⟩ := h.lookup_eq_some.mp hlookup
      exact absurd hk (hne e he)

omit [DecidableEq K] in
theorem filter_id (h : lc.Wf) {s t : List (Element K V)} (hring : lc.ring = s ++ e :: t) :
    lc.ring.filter (fun x => x.id != e.id) = s ++ t := by
  have hids := h.ids
  rw [hring, map_append, nodup_append] at hids
  obtain ⟨-, hcons, hdisj⟩ := hids
  have hs : ∀ x ∈ s, (x.id != e.id) = true := fun x hx =>
    bne_iff_ne.mpr (hdisj x.id (mem_map_of_mem hx) e.id mem_cons_self)
  have ht : ∀ x ∈ t, (x.id != e.id) = true := fun x hx =>
    bne_iff_ne.mpr fun hid => (nodup_cons.mp hcons).1 (hid ▸ mem_map_of_mem hx)
  rw [hring, filter_append, filter_cons_of_neg (by simp), filter_eq_self.mpr hs,
    filter_eq_self.mpr ht]

theorem removeElement (h : lc.Wf) (he : e ∈ lc.ring) : (lc.removeElement e).Wf where
  ht := by
    have hlookup : (lc.lookup e.k).map Element.id = some e.id := by
      rw [h.lookup_eq_some.mpr ⟨he, rfl⟩]
      rfl
    change (if (lc.lookup e.k).map Element.id = some e.id then lc.ht.filter fun p => p.1 != e.k
      else lc.ht).Perm ((lc.ring.filter fun x => x.id != e.id).map fun x => (x.k, x.id))
    rw [if_pos hlookup]
    refine (h.ht.filter _).trans ?_
    rw [filter_map]
    -- 環の中では key が違えば `id` が違う
    have hsame : lc.ring.filter ((fun p : K × Nat => p.1 != e.k) ∘ fun x => (x.k, x.id)) =
        lc.ring.filter fun x => x.id != e.id := by
      refine filter_congr fun x hx => ?_
      rw [Function.comp_apply, Bool.eq_iff_iff, bne_iff_ne, bne_iff_ne, not_iff_not]
      exact ⟨fun hk => h.eq_of_k hx he hk ▸ rfl, fun hid => h.eq_of_id hx he hid ▸ rfl⟩
    rw [hsame]
  keys := h.keys.sublist (filter_sublist.map _)
  ids := h.ids.sublist (filter_sublist.map _)
  fresh := fun x hx => h.fresh x (mem_of_mem_filter hx)
  size := by
    have hlen : (lc.ring.filter fun x => x.id != e.id).length + 1 = lc.ring.length := by
      obtain ⟨s, t, hring⟩ := append_of_mem he
      rw [h.filter_id hring, hring, length_append, length_append, length_cons]
      omega
    change lc.size - 1 = ((lc.ring.filter fun x => x.id != e.id).length : Int)
    have := h.size
    omega

theorem ring_removeLast {init : List (Element K V)} (h : lc.Wf) (hring : lc.ring = init ++ [e]) :
    (lc.removeElement e).Wf ∧ (lc.removeElement e).ring = init :=
  ⟨h.removeElement (hring ▸ mem_append_right _ (mem_singleton_self e)),
    (h.filter_id hring).trans (append_nil init)⟩

/-! ### 掃除 -/

theorem cleanLimit (h : lc.Wf) (hlimit : 0 < lc.limit) :
    lc.cleanLimit.Wf ∧ lc.cleanLimit.ring = lc.ring.take lc.limit.toNat ∧
      lc.cleanLimit.expiration = lc.expiration ∧ lc.cleanLimit.limit = lc.limit := by
  refine loop_rule
    (I := fun s => s.Wf ∧ s.ring <+: lc.ring ∧ min lc.limit lc.ring.length ≤ s.ring.length ∧
      s.expiration = lc.expiration ∧ s.limit = lc.limit)
    (Q := fun s _ => s.Wf ∧ s.ring = lc.ring.take lc.limit.toNat ∧
      s.expiration = lc.expiration ∧ s.limit = lc.limit)
    ?_ ?_ lc ⟨h, prefix_refl _, Int.min_le_right _ _, rfl, rfl⟩
  · rintro s s' ⟨hwf, hpre, hmin, hexp, hlim⟩ ht
    obtain ⟨hlt, init, e, hring, rfl⟩ := limitTurn_again ht
    obtain ⟨hwf', hring'⟩ := hwf.ring_removeLast hring
    refine ⟨hwf', ?_, ?_, hexp, hlim⟩
    · rw [hring']
      exact (prefix_append init [e]).trans (hring ▸ hpre)
    have hsize := hwf.size
    rw [hring, length_append, length_singleton] at hsize
    rw [hring']
    omega
  rintro s s' _ ⟨hwf, hpre, hmin, hexp, hlim⟩ ht
  obtain ⟨rfl, hstop⟩ : s' = s ∧ (s.size ≤ s.limit ∨ s.ring = []) := by
    unfold limitTurn popLast at ht
    split at ht
    · rcases eq_nil_or_concat' s.ring with hnil | ⟨init, e, hring⟩
      · rw [hnil] at ht
        cases ht
        exact ⟨rfl, .inr hnil⟩
      · rw [hring, getLast?_concat] at ht
        cases ht
    · rename_i hle
      cases ht
      exact ⟨rfl, .inl (Int.not_lt.mp hle)⟩
  refine ⟨hwf, ?_, hexp, hlim⟩
  have hsize := hwf.size
  have hlen := hpre.length_le
  rw [prefix_iff_eq_take.mp hpre]
  rcases hstop with hstop | hnil
  · rcases Nat.le_total lc.limit.toNat lc.ring.length with hle | hle
    · congr 1
      omega
    · rw [take_of_length_le hle, take_of_length_le (by omega)]
  rw [hnil, length_nil] at hmin
  have : lc.ring.length = 0 := by omega
  rw [length_eq_zero_iff.mp this, take_nil, take_nil]

theorem cleanOlder (h : lc.Wf) (needle : Int) : (lc.cleanOlder needle).Wf ∧
    (lc.cleanOlder needle).ring = lc.ring.rdropWhile (fun e => decide (e.dateAccess < needle)) := by
  refine loop_rule
    (I := fun s => s.Wf ∧ s.ring.rdropWhile (fun e => decide (e.dateAccess < needle)) =
      lc.ring.rdropWhile (fun e => decide (e.dateAccess < needle)))
    (Q := fun s _ => s.Wf ∧ s.ring = lc.ring.rdropWhile (fun e => decide (e.dateAccess < needle)))
    ?_ ?_ lc ⟨h, rfl⟩
  · rintro s s' ⟨hwf, hdrop⟩ ht
    obtain ⟨init, e, hring, hold, rfl⟩ := olderTurn_again ht
    obtain ⟨hwf', hring'⟩ := hwf.ring_removeLast hring
    refine ⟨hwf', ?_⟩
    rw [hring', ← hdrop, hring, rdropWhile_concat_pos _ _ _ (by simpa using hold)]
  rintro s s' _ ⟨hwf, hdrop⟩ ht
  obtain ⟨rfl, hstop⟩ : s' = s ∧
      s.ring = s.ring.rdropWhile (fun e => decide (e.dateAccess < needle)) := by
    unfold olderTurn popIfOlder at ht
    rcases eq_nil_or_concat' s.ring with hnil | ⟨init, e, hring⟩
    · rw [hnil] at ht
      cases ht
      rw [hnil]
      exact ⟨rfl, rfl⟩
    rw [hring, getLast?_concat, Option.bind_some] at ht
    split at ht
    · rename_i hpop
      cases ht
      split at hpop
      · rename_i hle
        rw [hring, rdropWhile_concat_neg _ _ _ (by simpa using hle)]
        exact ⟨rfl, rfl⟩
      · cases hpop
    · cases ht
  exact ⟨hwf, hstop.trans hdrop⟩

theorem clean (h : lc.Wf) (now : Int) : (lc.clean now).Wf ∧ (lc.clean now).ring =
    if 0 ≤ lc.expiration then lc.keptByLimit.rdropWhile fun e =>
      decide (e.dateAccess < if 0 < lc.expiration then now - lc.expiration else 0)
    else lc.keptByLimit := by
  unfold LimitedCache.clean keptByLimit
  simp only
  by_cases hlimit : 0 < lc.limit
  · obtain ⟨hwf, hring, hexp, -⟩ := h.cleanLimit hlimit
    rw [if_pos hlimit, hexp]
    split
    · rw [← hring]
      exact hwf.cleanOlder _
    · exact ⟨hwf, hring⟩
  rw [if_neg hlimit]
  split
  · exact h.cleanOlder _
  · exact ⟨h, rfl⟩

omit [DecidableEq K] in
theorem setExpiration (h : lc.Wf) (expiration : Int) :
    Wf { lc with expiration := expiration } := ⟨h.ht, h.keys, h.ids, h.fresh, h.size⟩

/-! ### 呼び出し -/

section

variable (h : lc.Wf)
include h

theorem find (now : Int) (k : K) : (lc.find now k).1.Wf := by
  unfold LimitedCache.find
  split
  · exact h
  rename_i e hlookup
  have he : e ∈ lc.ring := (h.lookup_eq_some.mp hlookup).1
  split
  · exact h.removeElement he
  split
  · exact h
  -- 要素は環の中で動くだけ
  obtain ⟨s, t, hring⟩ := append_of_mem he
  have hperm : (e :: (s ++ t)).Perm lc.ring := by
    rw [hring]
    exact perm_middle.symm
  have hids : ∀ {β : Type} (f : Element K V → β), f { e with dateAccess := now } = f e →
      (({ e with dateAccess := now } :: (s ++ t) : List (Element K V)).map f).Perm
        (lc.ring.map f) := by
    intro β f hf
    rw [map_cons, hf]
    exact hperm.map f
  simp only [h.filter_id hring]
  refine ⟨h.ht.trans (hids _ rfl).symm, (hids _ rfl).nodup_iff.mpr h.keys,
    (hids _ rfl).nodup_iff.mpr h.ids, ?_, ?_⟩
  · intro x hx
    rcases mem_cons.mp hx with rfl | hx
    · exact h.fresh e he
    · exact h.fresh x (hperm.subset (mem_cons_of_mem _ hx))
  have := hperm.length_eq
  rw [length_cons] at this
  rw [length_cons, this]
  exact h.size

theorem del (k : K) : (lc.del k).Wf := by
  unfold LimitedCache.del
  split
  · exact h
  · rename_i e hlookup
    exact h.removeElement (h.lookup_eq_some.mp hlookup).1

theorem pushFront (hk : ∀ e ∈ lc.ring, e.k ≠ k) (v : V) (now : Int) : Wf { lc with
      ht := (k, lc.nextId) :: lc.ht.filter fun p => p.1 != k
      ring := ⟨lc.nextId, k, v, now⟩ :: lc.ring
      nextId := lc.nextId + 1
      size := lc.size + 1 } where
  ht := by
    have hsame : lc.ht.filter (fun p => p.1 != k) = lc.ht := by
      refine filter_eq_self.mpr fun p hp => ?_
      obtain ⟨e, he, rfl⟩ := mem_map.mp (h.ht.subset hp)
      exact bne_iff_ne.mpr (hk e he)
    rw [hsame]
    exact h.ht.cons _
  keys := by
    refine nodup_cons.mpr ⟨fun hmem => ?_, h.keys⟩
    obtain ⟨e, he, heq⟩ := mem_map.mp hmem
    exact hk e he heq
  ids := by
    refine nodup_cons.mpr ⟨fun hmem => ?_, h.ids⟩
    obtain ⟨e, he, heq⟩ := mem_map.mp hmem
    exact absurd (h.fresh e he) (heq ▸ Nat.lt_irrefl _)
  fresh := by
    intro e he
    rcases mem_cons.mp he with rfl | he
    · exact Nat.lt_succ_self _
    · exact Nat.lt_succ_of_lt (h.fresh e he)
  size := by
    have := h.size
    change lc.size + 1 = ((lc.ring.length + 1 : Nat) : Int)
    omega

/-- `limited_cache_put` の掃除の前の cache -/
theorem put_eq_clean (now : Int) (k : K) (v : V) : ∃ lc1 : LimitedCache K V,
    lc1.Wf ∧ lc.put now k v = lc1.clean now ∧ lc1.limit = lc.limit ∧
      ∃ e : Element K V, e.dateAccess = now ∧ lc1.ring <+ e :: lc.ring := by
  unfold LimitedCache.put
  cases hlookup : lc.lookup k with
  | none => exact ⟨_, h.pushFront (h.lookup_eq_none.mp hlookup) v now, rfl, rfl, _, rfl, .refl _⟩
  | some old =>
    obtain ⟨hold, rfl⟩ := h.lookup_eq_some.mp hlookup
    have hwf := h.removeElement hold
    refine ⟨_, hwf.pushFront (fun e he hk => ?_) v now, rfl, rfl, _, rfl,
      filter_sublist.cons_cons _⟩
    have hmem : e ∈ lc.ring := mem_of_mem_filter he
    have hne := of_mem_filter he
    rw [h.eq_of_k hmem hold hk] at hne
    simp at hne

theorem put (now : Int) (k : K) (v : V) : (lc.put now k v).Wf := by
  obtain ⟨lc1, hwf, heq, -⟩ := h.put_eq_clean now k v
  rw [heq]
  exact (hwf.clean now).1

theorem flush (now : Int) : (lc.flush now).Wf :=
  ((h.setExpiration 0).clean now).1.setExpiration lc.expiration

end

omit [DecidableEq K] in
theorem setLimit (h : lc.Wf) (s : Int) : (lc.setLimit s).Wf :=
  ⟨h.ht, h.keys, h.ids, h.fresh, h.size⟩

end Wf

/-! ## run -/

/-- cache の 1 回の呼び出し。`now` はその時の `time(0)`。 -/
inductive Call (K V : Type)
  | put (now : Int) (k : K) (v : V)
  | get (now : Int) (k : K)
  | has (now : Int) (k : K)
  | del (k : K)
  | clean (now : Int)
  | flush (now : Int)
  | setLimit (s : Int)

def step (lc : LimitedCache K V) : Call K V → Option (LimitedCache K V)
  | .put now k v => some (lc.put now k v)
  | .get now k => some (lc.get now k).1
  | .has now k => some (lc.has now k).1
  | .del k => some (lc.del k)
  | .clean now => some (lc.clean now)
  | .flush now => some (lc.flush now)
  | .setLimit s => some (lc.setLimit s)

theorem wf_step (h : lc.Wf) {call : Call K V} (hs : lc.step call = some lc') : lc'.Wf := by
  cases call with
  | put now k v => cases hs; exact h.put now k v
  | get now k | has now k => cases hs; exact h.find now k
  | del k => cases hs; exact h.del k
  | clean now => cases hs; exact (h.clean now).1
  | flush now => cases hs; exact h.flush now
  | setLimit s => cases hs; exact h.setLimit s

omit [DecidableEq K] in
theorem wf_create {limit expiration : Int} {noatime : Bool} :
    (create limit expiration noatime : LimitedCache K V).Wf :=
  ⟨.refl _, nodup_nil, nodup_nil, fun _ he => absurd he not_mem_nil, rfl⟩

theorem wf_reachable {limit expiration : Int} {noatime : Bool}
    (h : Reachable step (create limit expiration noatime) lc) : lc.Wf :=
  h.invariant wf_create fun hwf _ hs => wf_step hwf hs

/-! ## flush -/

/-- cache が空で、どの key も見つからず、期限は元のまま -/
def Flushed (before after : LimitedCache K V) : Prop :=
  after.size = 0 ∧ (∀ now k, (after.get now k).2 = none) ∧ after.expiration = before.expiration

/-- **`limited_cache_flush` が cache を空にするのは上限の残す要素がどれも負の時刻のものであるとき。** -/
theorem flush_iff {limit expiration : Int} {noatime : Bool} {lc : LimitedCache K V}
    (h : Reachable step (create limit expiration noatime) lc) (now : Int) :
    lc.Flushed (lc.flush now) ↔ ∀ e ∈ lc.keptByLimit, e.dateAccess < 0 := by
  have hwf := wf_reachable h
  have hring : (lc.flush now).ring = lc.keptByLimit.rdropWhile fun e => decide (e.dateAccess < 0) :=
    ((hwf.setExpiration 0).clean now).2
  have hsize := (hwf.flush now).size
  have hempty : (lc.flush now).ring = [] ↔ ∀ e ∈ lc.keptByLimit, e.dateAccess < 0 := by
    rw [hring]
    simp
  rw [← hempty]
  constructor
  · rintro ⟨hzero, -, -⟩
    exact length_eq_zero_iff.mp (by omega)
  · intro hnil
    refine ⟨by rw [hsize, hnil]; rfl, fun now' k => ?_, rfl⟩
    have hnone : (lc.flush now).lookup k = none :=
      (hwf.flush now).lookup_eq_none.mpr fun e he => by
        rw [hnil] at he
        cases he
    rw [get, find, hnone]

/-- 負の時刻の要素は flush で消える -/
theorem flush_negative_date : ∃ lc : LimitedCache Nat Nat,
    exec step (create 0 3600 false) [.put (-5) 1 2] = some lc ∧ lc.size = 1 ∧
      lc.Flushed (lc.flush (-4)) := by
  obtain ⟨lc, hrun, hdates⟩ : ∃ lc : LimitedCache Nat Nat,
      exec step (create 0 3600 false) [.put (-5) 1 2] = some lc ∧
        lc.size = 1 ∧ lc.keptByLimit.map Element.dateAccess = [-5] :=
    ⟨_, rfl, by decide +kernel⟩
  refine ⟨lc, hrun, hdates.1, (flush_iff (reachable_of_exec _ hrun) (-4)).mpr fun e he => ?_⟩
  have hmem : e.dateAccess ∈ lc.keptByLimit.map Element.dateAccess := mem_map_of_mem he
  rw [hdates.2, mem_singleton] at hmem
  omega

/-- flush の後にも、要素が見つかる -/
theorem flush_keeps_entry : (exec step (create 0 3600 false) [.put 100 1 2]).map
    (fun lc : LimitedCache Nat Nat => ((lc.flush 200).size, ((lc.flush 200).get 200 1).2)) =
    some (1, some 2) := by
  decide +kernel

/-! ## 使った順 -/

/-- 新しく使った要素ほど前にある -/
def Recent (l : List (Element K V)) : Prop := l.Pairwise fun a b => b.dateAccess ≤ a.dateAccess

/-- 呼び出しの時刻 -/
def Call.now? : Call K V → Option Int
  | .put now _ _ | .get now _ | .has now _ | .clean now | .flush now => some now
  | .del _ | .setLimit _ => none

theorem Wf.clean_ring (h : lc.Wf) (now : Int) :
    (lc.clean now).ring <+: lc.keptByLimit ∧ lc.keptByLimit <+: lc.ring := by
  refine ⟨?_, ?_⟩
  · rw [(h.clean now).2]
    split
    · exact rdropWhile_prefix _ _
    · exact prefix_refl _
  · unfold keptByLimit
    split
    · exact take_prefix _ _
    · exact prefix_refl _

theorem find_ring (lc : LimitedCache K V) (now : Int) (k : K) : (lc.find now k).1.ring <+ lc.ring ∨
    ∃ e, e.dateAccess = now ∧ (lc.find now k).1.ring <+ e :: lc.ring := by
  unfold find
  split
  · exact .inl (.refl _)
  split
  · exact .inl filter_sublist
  split
  · exact .inl (.refl _)
  · exact .inr ⟨_, rfl, filter_sublist.cons_cons _⟩

/-- 環に加わるのは先頭の要素だけ -/
theorem ring_step (h : lc.Wf) {call : Call K V} (hs : lc.step call = some lc') :
    lc'.ring <+ lc.ring ∨ ∃ e, call.now? = some e.dateAccess ∧ lc'.ring <+ e :: lc.ring := by
  cases call with
  | put now k v =>
    cases hs
    obtain ⟨lc1, hwf, heq, -, e, rfl, hring⟩ := h.put_eq_clean now k v
    refine .inr ⟨e, rfl, ?_⟩
    rw [heq]
    exact ((hwf.clean_ring _).1.trans (hwf.clean_ring e.dateAccess).2).sublist.trans hring
  | get now k | has now k =>
    cases hs
    rcases find_ring lc now k with hring | ⟨e, rfl, hring⟩
    · exact .inl hring
    · exact .inr ⟨e, rfl, hring⟩
  | del k =>
    cases hs
    unfold del
    split
    · exact .inl (.refl _)
    · exact .inl filter_sublist
  | clean now =>
    cases hs
    exact .inl ((h.clean_ring now).1.trans (h.clean_ring now).2).sublist
  | flush now =>
    cases hs
    have hring := (h.setExpiration 0).clean_ring now
    exact .inl (hring.1.trans hring.2).sublist
  | setLimit s => cases hs; exact .inl (.refl _)

theorem recent_exec {calls : List (Call K V)} (h : lc.Wf) (hrecent : Recent lc.ring)
    (hclock : (calls.filterMap Call.now?).Pairwise (· ≤ ·))
    (hpast : ∀ e ∈ lc.ring, ∀ n ∈ calls.filterMap Call.now?, e.dateAccess ≤ n)
    (hrun : exec step lc calls = some lc') : Recent lc'.ring := by
  induction calls generalizing lc with
  | nil =>
    cases hrun
    exact hrecent
  | cons call calls ih =>
    obtain ⟨lc1, hs, hrun⟩ := Option.bind_eq_some_iff.mp hrun
    have hlater : ∀ n ∈ calls.filterMap Call.now?, n ∈ (call :: calls).filterMap Call.now? := by
      intro n hn
      obtain ⟨c, hc, hn⟩ := mem_filterMap.mp hn
      exact mem_filterMap.mpr ⟨c, mem_cons_of_mem _ hc, hn⟩
    rcases ring_step h hs with hring | ⟨e, hnow, hring⟩
    · refine ih (wf_step h hs) (hrecent.sublist hring) ?_ ?_ hrun
      · exact hclock.sublist ((sublist_cons_self call calls).filterMap _)
      · exact fun e he n hn => hpast e (hring.subset he) n (hlater n hn)
    -- 加わった要素の時刻は前のどれよりも遅く、後の呼び出しのどれよりも早い
    rw [filterMap_cons_some hnow, pairwise_cons] at hclock
    have hfirst : ∀ x ∈ lc.ring, x.dateAccess ≤ e.dateAccess := fun x hx =>
      hpast x hx _ (by rw [filterMap_cons_some hnow]; exact mem_cons_self)
    refine ih (wf_step h hs) (Pairwise.sublist hring (pairwise_cons.mpr ⟨hfirst, hrecent⟩))
      hclock.2 (fun x hx n hn => ?_) hrun
    rcases mem_cons.mp (hring.subset hx) with rfl | hx
    · exact hclock.1 n hn
    · exact hpast x hx n (hlater n hn)

/-- **時刻が戻らなければ、数、環、hash table は揃い、環は新しい順で、put の後の数は上限以下。** -/
theorem cache_in_order {limit expiration : Int} {noatime : Bool} {calls : List (Call K V)}
    (hclock : (calls.filterMap Call.now?).Pairwise (· ≤ ·))
    (hrun : exec step (create limit expiration noatime) calls = some lc) :
    (lc.size = lc.ring.length ∧ lc.ht.length = lc.ring.length) ∧ Recent lc.ring ∧
      ∀ now k v, 0 < lc.limit → (lc.put now k v).size ≤ lc.limit := by
  have hwf := wf_reachable (reachable_of_exec _ hrun)
  refine ⟨⟨hwf.size, by simpa using hwf.ht.length_eq⟩, ?_, fun now k v hlimit => ?_⟩
  · exact recent_exec wf_create .nil hclock (fun _ he => absurd he not_mem_nil) hrun
  · obtain ⟨lc₁, hwf₁, heq, hlim, -⟩ := hwf.put_eq_clean now k v
    have hlen := (hwf₁.clean_ring now).1.length_le
    have hsize := (hwf.put now k v).size
    rw [keptByLimit, hlim, if_pos hlimit, length_take] at hlen
    rw [heq] at hsize ⊢
    omega

/-- 2 つ目の put が古い要素を追い出す -/
theorem cache_in_order_two : ∃ lc : LimitedCache Nat Nat,
    exec step (create 1 60 false) [.put 10 1 2, .get 20 1, .put 30 3 4] = some lc ∧
      lc.size = lc.ring.length ∧ Recent lc.ring := by
  obtain ⟨lc, hrun⟩ : ∃ lc : LimitedCache Nat Nat,
      exec step (create 1 60 false) [.put 10 1 2, .get 20 1, .put 30 3 4] = some lc := ⟨_, rfl⟩
  have h := cache_in_order (by decide) hrun
  exact ⟨lc, hrun, h.1.1, h.2.1⟩

/-! ## 期限 -/

/-- `limited_cache_has`、`limited_cache_get`、上限の無い掃除が一致する -/
def Agree (lc : LimitedCache K V) (now : Int) (k : K) : Prop :=
  ((lc.has now k).2.1 = true ↔ (lc.get now k).2.isSome) ∧
    ((lc.get now k).2.isSome ↔ (((lc.setLimit 0).clean now).lookup k).isSome)

theorem mem_rdropWhile {α : Type} {p : α → Bool} {x : α} {l : List α} (hx : x ∈ l)
    (hp : p x = false) : x ∈ l.rdropWhile p := by
  rw [← mem_reverse, ← takeWhile_append_dropWhile (p := p) (l := l.reverse), mem_append] at hx
  rcases hx with hx | hx
  · rw [mem_takeWhile_imp hx] at hp
    cases hp
  · exact mem_reverse.mpr hx

theorem get_isSome_iff {now : Int} {k : K} {e : Element K V} (h : lc.lookup k = some e) :
    (lc.get now k).2.isSome ↔ now - lc.expiration ≤ e.dateAccess := by
  rw [get, find, h]
  simp only
  split
  · rename_i hold
    exact ⟨nofun, fun hle => absurd hold (Int.not_lt.mpr hle)⟩
  · rename_i hold
    refine ⟨fun _ => Int.not_lt.mp hold, fun _ => ?_⟩
    split <;> rfl

theorem Wf.clean_lookup_isSome_iff (h : lc.Wf) {now : Int} {k : K} {e : Element K V}
    (he : lc.lookup k = some e) :
    (((lc.setLimit 0).clean now).lookup k).isSome ↔ e ∈ ((lc.setLimit 0).clean now).ring := by
  have hwf := ((h.setLimit 0).clean now).1
  have hring := (h.setLimit 0).clean_ring now
  obtain ⟨hmem, rfl⟩ := h.lookup_eq_some.mp he
  constructor
  · intro hsome
    obtain ⟨x, hx⟩ := Option.isSome_iff_exists.mp hsome
    obtain ⟨hx, hk⟩ := hwf.lookup_eq_some.mp hx
    exact h.eq_of_k ((hring.1.trans hring.2).subset hx) hmem hk ▸ hx
  · intro hkept
    rw [hwf.lookup_eq_some.mpr ⟨hkept, rfl⟩]
    rfl

/-- 期限も上限も無い表 -/
def recorded (m : K → Option V) : Call K V → K → Option V
  | .put _ k v => Function.update m k (some v)
  | .del k => Function.update m k none
  | _ => m

/-- cache の要素はどれも表にある -/
def Within (lc : LimitedCache K V) (m : K → Option V) : Prop := ∀ e ∈ lc.ring, m e.k = some e.v

theorem within_del (h : lc.Wf) {m : K → Option V} (hm : lc.Within m) (k : K) {e : Element K V}
    (he : e ∈ (lc.del k).ring) : e.k ≠ k ∧ m e.k = some e.v := by
  unfold del at he
  split at he
  · rename_i hlookup
    exact ⟨h.lookup_eq_none.mp hlookup e he, hm e he⟩
  rename_i old hlookup
  obtain ⟨hold, rfl⟩ := h.lookup_eq_some.mp hlookup
  have hmem := mem_of_mem_filter he
  refine ⟨fun hk => ?_, hm e hmem⟩
  have hne := of_mem_filter he
  rw [h.eq_of_k hmem hold hk] at hne
  simp at hne

theorem within_find {m : K → Option V} (h : lc.Wf) (hm : lc.Within m) (now : Int) (k : K) :
    (lc.find now k).1.Within m := by
  unfold find
  split
  · exact hm
  rename_i e hlookup
  split
  · exact fun x hx => hm x (mem_of_mem_filter hx)
  split
  · exact hm
  · exact forall_mem_cons.mpr ⟨hm e (h.lookup_eq_some.mp hlookup).1,
      fun x hx => hm x (mem_of_mem_filter hx)⟩

theorem within_clean {m : K → Option V} (h : lc.Wf) (hm : lc.Within m) (now : Int) :
    (lc.clean now).Within m :=
  fun e he => hm e (((h.clean_ring now).1.trans (h.clean_ring now).2).subset he)

theorem within_step {m : K → Option V} (h : lc.Wf) (hm : lc.Within m) {call : Call K V}
    (hs : lc.step call = some lc') : lc'.Within (recorded m call) := by
  cases call with
  | put now k v =>
    cases hs
    have hdel := fun {e} => within_del h hm k (e := e)
    refine within_clean ((h.del k).pushFront (fun e he => (hdel he).1) v now) ?_ now
    refine forall_mem_cons.mpr ⟨Function.update_self .., fun e he => ?_⟩
    rw [recorded, Function.update_of_ne (hdel he).1]
    exact (hdel he).2
  | get now k | has now k => cases hs; exact within_find h hm now k
  | del k =>
    cases hs
    intro e he
    obtain ⟨hk, he⟩ := within_del h hm k he
    rw [recorded, Function.update_of_ne hk]
    exact he
  | clean now => cases hs; exact within_clean h hm now
  | flush now => cases hs; exact within_clean (h.setExpiration 0) hm now
  | setLimit s => cases hs; exact hm

/-- **`limited_cache_get` の答えは、無いか、最後に put されて消されていない値。** -/
theorem get_recorded (limit expiration : Int) (noatime : Bool) (calls : List (Call K V)) (now : Int)
    (k : K) : let v := (exec step (create limit expiration noatime) calls).bind fun lc =>
      (lc.get now k).2
    v = none ∨ v = calls.foldl recorded (fun _ => none) k := by
  have hrun : ∀ (calls : List (Call K V)) {lc : LimitedCache K V} {m}, lc.Wf → lc.Within m →
      let v := (exec step lc calls).bind fun lc => (lc.get now k).2
      v = none ∨ v = calls.foldl recorded m k := by
    intro calls
    induction calls with
    | nil =>
      intro lc m h hm
      show (lc.find now k).2 = none ∨ (lc.find now k).2 = m k
      unfold find
      split
      · exact .inl rfl
      rename_i e hlookup
      obtain ⟨he, rfl⟩ := h.lookup_eq_some.mp hlookup
      split
      · exact .inl rfl
      · exact .inr (by split <;> exact (hm e he).symm)
    | cons call calls ih =>
      intro lc m h hm
      rw [exec]
      cases hs : lc.step call with
      | none => exact .inl rfl
      | some lc' => exact ih (wf_step h hs) (within_step h hm hs)
  exact hrun calls wf_create (forall_mem_nil _)

end LimitedCache

end Redcurrant.Metacd
