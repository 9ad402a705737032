import Redcurrant.Infra.Cstring
import Redcurrant.Infra.Loop
import Redcurrant.Infra.Run
import Redcurrant.Metautils.LruTree

/-!
# resolver の cache

meta0 と conscience の答え（csm0）と service の答えを 2 つの LRU の木に取っておく。値には最後に使った時刻が付く。
-/

namespace Redcurrant.Resolver

open Infra Metautils List

structure CachedElement where
  use : Int
  elements : List Bytes
  deriving DecidableEq

/-- resolver の木。作る時の option は 0。 -/
abbrev Lru := LruTree Bytes CachedElement false

structure LruExt where
  cache : Lru
  ttl : Int
  max : Nat

structure HcResolver where
  (services csm0 : LruExt)
  bogonow : Int
  (noatime nocache : Bool)

/-- `hc_resolver_create1` -/
def HcResolver.create (now : Int) : HcResolver where
  services := ⟨.create, 3600, 200000⟩
  csm0 := ⟨.create, 0, 0⟩
  bogonow := now
  noatime := false
  nocache := false

inductive Which
  | services | csm0
  deriving DecidableEq

variable (r : HcResolver)

def HcResolver.ext : Which → LruExt
  | .services => r.services
  | .csm0 => r.csm0

def HcResolver.setExt (l : LruExt) : Which → HcResolver
  | .services => { r with services := l }
  | .csm0 => { r with csm0 := l }

def HcResolver.setCache (w : Which) (lru : Lru) : HcResolver :=
  r.setExt { r.ext w with cache := lru } w

/-! ## 呼び出し -/

def HcResolver.getCached (w : Which) (k : Bytes) : HcResolver × Option (List Bytes) :=
  match (r.ext w).cache.get k with
  | (lru, none) => (r.setCache w lru, none)
  | (lru, some elt) =>
    let lru := if r.noatime then lru else lru.modify k fun elt => { elt with use := r.bogonow }
    (r.setCache w lru, some elt.elements)

def HcResolver.store (w : Which) (k : Bytes) (v : List Bytes) : HcResolver :=
  if r.nocache then r else r.setCache w ((r.ext w).cache.insert k ⟨r.bogonow, v⟩)

def HcResolver.forget (w : Which) (k : Bytes) : HcResolver :=
  r.setCache w ((r.ext w).cache.remove k)

def HcResolver.setNow (now : Int) : HcResolver := { r with bogonow := now }

/-- `_resolver_expire` の loop の 1 回。木と、捨てた数。 -/
def expireTurn (oldest : Int) (s : Lru × Nat) : Turn (Lru × Nat) Unit :=
  match s.1.getLast with
  | (lru, none) => .stop (lru, s.2) ()
  | (lru, some (_, elt)) =>
    if oldest ≤ elt.use then .stop (lru, s.2) () else .again (lru.stealLast.1, s.2 + 1)

variable {s s' : Lru × Nat}

theorem expireTurn_again {oldest : Int} (h : expireTurn oldest s = .again s') :
    ∃ n init, s.1.deq = init ++ [n] ∧ n.2.use < oldest ∧ s'.1.deq = (n :: init).dropLast := by
  rcases eq_nil_or_concat' s.1.deq with hnil | ⟨init, n, hconcat⟩
  · rw [expireTurn, LruTree.getLast_nil hnil] at h
    cases h
  obtain ⟨hlast, hdeq⟩ := LruTree.deq_getLast hconcat
  rw [expireTurn, show s.1.getLast = (s.1.getLast.1, some n) from Prod.ext rfl hlast] at h
  simp only at h
  split at h
  · cases h
  rename_i hold
  cases h
  exact ⟨n, init, hconcat, Int.not_le.mp hold, congrArg List.dropLast hdeq⟩

theorem expireTurn_stop {oldest : Int} {u : Unit} (h : expireTurn oldest s = .stop s' u) :
    (s.1.deq = [] ∧ s'.1.deq = []) ∨
      ∃ n init, s.1.deq = init ++ [n] ∧ oldest ≤ n.2.use ∧ s'.1.deq = n :: init := by
  rcases eq_nil_or_concat' s.1.deq with hnil | ⟨init, n, hconcat⟩
  · rw [expireTurn, LruTree.getLast_nil hnil] at h
    cases h
    exact .inl ⟨hnil, hnil⟩
  obtain ⟨hlast, hdeq⟩ := LruTree.deq_getLast hconcat
  rw [expireTurn, show s.1.getLast = (s.1.getLast.1, some n) from Prod.ext rfl hlast] at h
  simp only at h
  split at h
  · rename_i hfresh
    cases h
    exact .inr ⟨n, init, hconcat, hfresh, hdeq⟩
  · cases h

theorem expireTurn_lt {oldest : Int} (h : expireTurn oldest s = .again s') :
    s'.1.deq.length < s.1.deq.length := by
  obtain ⟨n, init, hdeq, -, hdeq'⟩ := expireTurn_again h
  rw [hdeq, hdeq', length_dropLast, length_append, length_cons, length_singleton]
  omega

def resolverExpire (lru : Lru) (oldest : Int) : Lru × Nat :=
  (loop (expireTurn oldest) (fun s => s.1.deq.length) expireTurn_lt (lru, 0)).1

def lruExpire (bogonow : Int) (l : LruExt) : LruExt × Nat :=
  if 0 < l.ttl then
    let (lru, count) := resolverExpire l.cache (bogonow - l.ttl)
    ({ l with cache := lru }, count)
  else (l, 0)

def HcResolver.expire : HcResolver × Nat :=
  let (csm0, n) := lruExpire r.bogonow r.csm0
  let (services, m) := lruExpire r.bogonow r.services
  ({ r with csm0 := csm0, services := services }, n + m)

/-! ## 捨てられるもの -/

section

variable {lru : Lru} {oldest : Int}

theorem expire_all_old (h : ∀ n ∈ lru.deq, n.2.use < oldest) :
    (resolverExpire lru oldest).1.deq = [] := by
  refine loop_rule (I := fun s => ∀ n ∈ s.1.deq, n.2.use < oldest)
    (Q := fun s _ => s.1.deq = []) ?_ ?_ (lru, 0) h
  · intro s s' hold ht m hm
    obtain ⟨n, init, hdeq, -, hdeq'⟩ := expireTurn_again ht
    refine hold m ?_
    rw [hdeq'] at hm
    rw [hdeq, mem_append, mem_singleton]
    exact (mem_cons.mp ((dropLast_sublist _).subset hm)).symm
  · intro s s' _ hold ht
    rcases expireTurn_stop ht with ⟨-, hnil⟩ | ⟨n, init, hdeq, hfresh, -⟩
    · exact hnil
    · exact absurd (hold n (hdeq ▸ mem_append_right _ (mem_singleton_self n)))
        (Int.not_lt.mpr hfresh)

variable {init : List (Bytes × CachedElement)}

theorem expire_last_fresh {n : Bytes × CachedElement} (hdeq : lru.deq = init ++ [n])
    (hfresh : oldest ≤ n.2.use) : (resolverExpire lru oldest).1.deq = n :: init := by
  refine loop_rule (I := fun s => s.1.deq = init ++ [n]) (Q := fun s _ => s.1.deq = n :: init)
    ?_ ?_ (lru, 0) hdeq
  · intro s s' hI ht
    obtain ⟨m, init', hdeq', hold, -⟩ := expireTurn_again ht
    rw [hI] at hdeq'
    obtain ⟨-, rfl⟩ := concat_inj.mp (by simpa using hdeq')
    exact absurd hold (Int.not_lt.mpr hfresh)
  intro s s' _ hI ht
  rcases expireTurn_stop ht with ⟨hnil, -⟩ | ⟨m, init', hdeq', -, hres⟩
  · rw [hI] at hnil
    simp at hnil
  rw [hI] at hdeq'
  obtain ⟨rfl, rfl⟩ := concat_inj.mp (by simpa using hdeq')
  exact hres

theorem expire_last_old {n : Bytes × CachedElement} (hdeq : lru.deq = init ++ [n])
    (hold : n.2.use < oldest) :
    (resolverExpire lru oldest).1.deq = [] ∨
      ∃ m ∈ (resolverExpire lru oldest).1.deq, m.2.use < oldest := by
  -- 見た node は先頭にいるので、次の回で捨てられない
  refine loop_rule
    (I := fun s => s.1.deq = [] ∨ (∃ m rest, s.1.deq = m :: rest ∧ m.2.use < oldest) ∨
      ∃ m init, s.1.deq = init ++ [m] ∧ m.2.use < oldest)
    (Q := fun s _ => s.1.deq = [] ∨ ∃ m ∈ s.1.deq, m.2.use < oldest) ?_ ?_ (lru, 0)
    (.inr (.inr ⟨n, init, hdeq, hold⟩))
  · intro s s' _ ht
    obtain ⟨m, init, -, hold, hdeq'⟩ := expireTurn_again ht
    cases init with
    | nil => exact .inl hdeq'
    | cons m' init => exact .inr (.inl ⟨m, (m' :: init).dropLast, hdeq', hold⟩)
  intro s s' _ hI ht
  rcases expireTurn_stop ht with ⟨-, hnil⟩ | ⟨m, init, hdeq, hfresh, hdeq'⟩
  · exact .inl hnil
  rw [hdeq] at hI
  rw [hdeq']
  rcases hI with hnil | ⟨m', rest, hcons, hold⟩ | ⟨m', init', hconcat, hold⟩
  · simp at hnil
  · cases init with
    | nil =>
      rw [nil_append, List.cons.injEq] at hcons
      exact absurd (hcons.1 ▸ hold) (Int.not_lt.mpr hfresh)
    | cons m0 init =>
      rw [cons_append, List.cons.injEq] at hcons
      refine .inr ⟨m0, mem_cons_of_mem _ mem_cons_self, ?_⟩
      rw [hcons.1]
      exact hold
  · obtain ⟨-, rfl⟩ := concat_inj.mp (by simpa using hconcat)
    exact absurd hold (Int.not_lt.mpr hfresh)

/-- 新しいものだけの列 -/
def fresh (oldest : Int) (deq : List (Bytes × CachedElement)) : List (Bytes × CachedElement) :=
  deq.filter fun n => decide (oldest ≤ n.2.use)

/-- **古いものだけを捨てて順を保つのはすべてが古いか、高々 1 つのとき。** -/
theorem resolverExpire_iff : (resolverExpire lru oldest).1.deq = fresh oldest lru.deq ↔
    (∀ n ∈ lru.deq, n.2.use < oldest) ∨ lru.deq.length ≤ 1 := by
  by_cases hall : ∀ n ∈ lru.deq, n.2.use < oldest
  · refine ⟨fun _ => .inl hall, fun _ => ?_⟩
    rw [expire_all_old hall, fresh, eq_comm, filter_eq_nil_iff]
    exact fun n hn => by simpa using hall n hn
  rw [or_iff_right hall]
  rcases eq_nil_or_concat' lru.deq with hnil | ⟨init, n, hdeq⟩
  · exact absurd (by rw [hnil]; exact fun n hn => absurd hn not_mem_nil) hall
  have hlen : lru.deq.length = init.length + 1 := by
    rw [hdeq, length_append, length_singleton]
  by_cases hfresh : oldest ≤ n.2.use
  · rw [expire_last_fresh hdeq hfresh]
    constructor
    · -- 末尾が先頭に移って順が保たれるのは、1 つのとき
      intro heq
      have hwhole : fresh oldest lru.deq = lru.deq := by
        refine filter_eq_self.mpr (length_filter_eq_length_iff.mp ?_)
        change (fresh oldest lru.deq).length = lru.deq.length
        rw [← heq, length_cons, hlen]
      rw [hwhole, hdeq] at heq
      cases init with
      | nil => rw [hlen, length_nil]
      | cons m init =>
        rw [cons_append, List.cons.injEq] at heq
        have hnodup := lru.nodup
        rw [hdeq, ← heq.1, cons_append, map_cons, nodup_cons] at hnodup
        exact absurd (by simp) hnodup.1
    · intro hle
      obtain rfl : init = [] := length_eq_zero_iff.mp (by omega)
      rw [hdeq, fresh, nil_append, filter_cons_of_pos (by simpa using hfresh)]
      rfl
  · have hold : n.2.use < oldest := Int.not_le.mp hfresh
    constructor
    · intro heq
      exfalso
      rcases expire_last_old hdeq hold with hnil | ⟨m, hm, hmold⟩
      · rw [heq] at hnil
        refine hall fun m hm => ?_
        simpa using filter_eq_nil_iff.mp hnil m hm
      rw [heq] at hm
      have := (mem_filter.mp hm).2
      rw [decide_eq_true_eq] at this
      exact absurd hmold (Int.not_lt.mpr this)
    · intro hle
      obtain rfl : init = [] := length_eq_zero_iff.mp (by omega)
      refine absurd ?_ hall
      rw [hdeq]
      exact fun m hm => (mem_singleton.mp hm) ▸ hold

end

/-! ## resolver の run -/

/-- cache の中身を決める呼び出し -/
inductive ResolverCall
  | store (w : Which) (k : Bytes) (v : List Bytes)
  | lookup (w : Which) (k : Bytes)
  | forget (w : Which) (k : Bytes)
  | setNow (now : Int)

def HcResolver.step : ResolverCall → Option HcResolver
  | .store w k v => some (r.store w k v)
  | .lookup w k => some (r.getCached w k).1
  | .forget w k => some (r.forget w k)
  | .setNow now => some (r.setNow now)

/-- 時計は戻らない -/
def HcResolver.clockForward : ResolverCall → Bool
  | .setNow now => decide (r.bogonow ≤ now)
  | _ => true

/-- **`hc_resolver_expire` が古いものだけを捨てるのはすべてが古いか、高々 1 つのとき。** -/
theorem hcResolverExpire_iff (r : HcResolver) (w : Which) {ttl : Int} (httl : 0 < ttl) :
    ((r.setExt { r.ext w with ttl := ttl } w).expire.1.ext w).cache.deq =
        fresh (r.bogonow - ttl) (r.ext w).cache.deq ↔
      (∀ n ∈ (r.ext w).cache.deq, n.2.use < r.bogonow - ttl) ∨ (r.ext w).cache.deq.length ≤ 1 := by
  have hexpire : ((r.setExt { r.ext w with ttl := ttl } w).expire.1.ext w).cache =
      (resolverExpire (r.ext w).cache (r.bogonow - ttl)).1 := by
    cases w with
    | services =>
      change (lruExpire r.bogonow { r.services with ttl := ttl }).1.cache = _
      rw [lruExpire, if_pos httl]
      rfl
    | csm0 =>
      change (lruExpire r.bogonow { r.csm0 with ttl := ttl }).1.cache = _
      rw [lruExpire, if_pos httl]
      rfl
  rw [hexpire]
  exact resolverExpire_iff

def agedResolver : HcResolver :=
  (((HcResolver.create 0).store .services [65] [[66]]).store .services [67] [[68]]).setNow 4000

/-- すべてが古ければ、すべてが捨てられる -/
theorem hcResolverExpire_aged : agedResolver.services.cache.deq.length = 2 ∧
    agedResolver.expire.1.services.cache.deq = fresh 400 agedResolver.services.cache.deq :=
  ⟨by decide, (hcResolverExpire_iff agedResolver .services (show (0 : Int) < 3600 by decide)).mpr
    (.inl (by decide))⟩

/-- 古いものの前にある新しいものが捨てられる -/
theorem fresh_entry_expired :
    execOk HcResolver.step (fun r call => r.clockForward call = true) (HcResolver.create 0)
        [.store .services [65] [[66]], .setNow 4000, .store .services [67] [[68]]] = true ∧
      (exec HcResolver.step (HcResolver.create 0)
        [.store .services [65] [[66]], .setNow 4000, .store .services [67] [[68]]]).map
        (fun r => (r.services.cache.deq.map fun n => (n.1, n.2.use),
          r.expire.1.services.cache.deq.map Prod.fst,
          (fresh (r.bogonow - r.services.ttl) r.services.cache.deq).map Prod.fst)) =
        some ([([67], 4000), ([65], 0)], [], [[67]]) := by
  decide +kernel

end Redcurrant.Resolver
