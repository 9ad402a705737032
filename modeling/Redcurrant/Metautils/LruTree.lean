import Mathlib.Data.List.Nodup

/-!
# LRU の木

`lru_tree_s` は key の木と使った順の queue を合わせたもので、queue の列で表す。先頭が最新。
-/

namespace Redcurrant.Metautils

open List

/-- `struct lru_tree_s`。key は重ならない。 -/
structure LruTree (K V : Type) (noatime : Bool) where
  deq : List (K × V)
  nodup : (deq.map Prod.fst).Nodup

namespace LruTree

variable {K V : Type} {noatime : Bool}

/-- `lru_tree_create` -/
def create : LruTree K V noatime := ⟨[], nodup_nil⟩

section

variable [DecidableEq K]

/-- `RB_FIND` -/
def find (lt : LruTree K V noatime) (k : K) : Option (K × V) := lt.deq.find? fun n => n.1 == k

variable (lt : LruTree K V noatime)

/-- `_node_deq_extract` -/
def extract (k : K) : List (K × V) := lt.deq.eraseP fun n => n.1 == k

theorem nodup_extract (k : K) : ((lt.extract k).map Prod.fst).Nodup :=
  lt.nodup.sublist (eraseP_sublist.map _)

theorem notMem_extract (k : K) : k ∉ (lt.extract k).map Prod.fst := by
  obtain ⟨deq, hnodup⟩ := lt
  change k ∉ (deq.eraseP fun n => n.1 == k).map Prod.fst
  induction deq with
  | nil => exact not_mem_nil
  | cons n deq ih =>
    rw [map_cons, nodup_cons] at hnodup
    rw [eraseP_cons]
    by_cases hk : n.1 = k
    · rw [beq_iff_eq.mpr hk]
      exact hk ▸ hnodup.1
    · rw [beq_eq_false_iff_ne.mpr hk, cond_false, map_cons, mem_cons, not_or]
      exact ⟨Ne.symm hk, ih hnodup.2⟩

/-- node を先頭に置く。元の場所にあれば、そこから抜く。 -/
def pushFront (k : K) (v : V) : LruTree K V noatime :=
  ⟨(k, v) :: lt.extract k, nodup_cons.mpr ⟨lt.notMem_extract k, lt.nodup_extract k⟩⟩

/-- `lru_tree_insert` -/
def insert (k : K) (v : V) : LruTree K V noatime := lt.pushFront k v

/-- `lru_tree_get` -/
def get (k : K) : LruTree K V noatime × Option V :=
  match lt.find k with
  | none => (lt, none)
  | some n => (if noatime then lt else lt.pushFront n.1 n.2, some n.2)

/-- `lru_tree_remove` -/
def remove (k : K) : LruTree K V noatime := ⟨lt.extract k, lt.nodup_extract k⟩

/-- `lru_tree_get_last` -/
def getLast (lt : LruTree K V noatime) : LruTree K V noatime × Option (K × V) :=
  match lt.deq.getLast? with
  | none => (lt, none)
  | some n => (if noatime then lt else lt.pushFront n.1 n.2, some n)

/-- `lru_tree_get` の返す値を木の中で書き換える -/
def modify (k : K) (f : V → V) : LruTree K V noatime where
  deq := lt.deq.map fun n => if n.1 = k then (n.1, f n.2) else n
  nodup := by
    have hkeys : (lt.deq.map fun n => if n.1 = k then (n.1, f n.2) else n).map Prod.fst =
        lt.deq.map Prod.fst := by
      rw [map_map]
      refine map_congr_left fun n _ => ?_
      by_cases hk : n.1 = k
      · simp [hk]
      · simp [hk]
    rw [hkeys]
    exact lt.nodup

end

/-- `lru_tree_steal_last` -/
def stealLast (lt : LruTree K V noatime) : LruTree K V noatime × Option (K × V) :=
  (⟨lt.deq.dropLast, lt.nodup.sublist ((dropLast_sublist _).map _)⟩, lt.deq.getLast?)

section

variable [DecidableEq K]

theorem extract_last {lt : LruTree K V noatime} {n : K × V} {init : List (K × V)}
    (h : lt.deq = init ++ [n]) : lt.extract n.1 = init := by
  have hnodup := lt.nodup
  rw [h, map_append, nodup_append] at hnodup
  have hinit : ∀ m ∈ init, ¬ (m.1 == n.1) = true := by
    intro m hm hk
    exact hnodup.2.2 m.1 (mem_map_of_mem hm) n.1 (mem_singleton_self _) (beq_iff_eq.mp hk)
  have hself : [n].eraseP (fun m => m.1 == n.1) = [] := by simp
  rw [extract, h, eraseP_append_right _ hinit, hself, append_nil]

theorem deq_getLast {lt : LruTree K V false} {n : K × V} {init : List (K × V)}
    (h : lt.deq = init ++ [n]) : lt.getLast.2 = some n ∧ lt.getLast.1.deq = n :: init := by
  have hlast : lt.deq.getLast? = some n := by rw [h, List.getLast?_concat]
  unfold getLast
  rw [hlast]
  exact ⟨rfl, by rw [← extract_last h]; rfl⟩

theorem getLast_nil {lt : LruTree K V noatime} (h : lt.deq = []) : lt.getLast = (lt, none) := by
  have hlast : lt.deq.getLast? = none := by rw [h]; rfl
  unfold getLast
  rw [hlast]

end

end LruTree

end Redcurrant.Metautils
