import Redcurrant.Infra.Cstring

/-!
# 受信した byte の slab

network から読んだ byte は slab の列になって読まれるのを待つ。`start` から `end` までがまだ読まれていない。
-/

namespace Redcurrant.Server

open Infra List

/-! ## slab -/

/-- `struct data_slab_s` の buffer。`buff` の長さが `alloc` で、どれも `guint`。 -/
structure Slab where
  buff : Bytes
  (start stop : Nat)
  start_le : start ≤ stop
  stop_le : stop ≤ buff.length
  alloc_lt : buff.length < 2 ^ 32

variable (ds : Slab) (q : List Slab)

/-- まだ読まれていない byte -/
def Slab.bytes : Bytes := (ds.buff.take ds.stop).drop ds.start

/-- `data_slab_has_data` -/
def Slab.hasData : Bool := decide (ds.start < ds.stop)

/-- `data_slab_consume` -/
def Slab.consume (max : Nat) : Option (Bytes × Slab) :=
  if ds.hasData then
    let n := min max (ds.stop - ds.start)
    some ((ds.buff.drop ds.start).take n,
      { ds with start := ds.start + n, start_le := by have := ds.start_le; omega })
  else none

def Slab.ofBytes (b : Bytes) (h : b.length < 2 ^ 32) : Slab :=
  ⟨b, 0, b.length, Nat.zero_le _, Nat.le.refl, h⟩

section

variable {ds : Slab}

@[simp] theorem Slab.bytes_ofBytes (b : Bytes) (h : b.length < 2 ^ 32) :
    (Slab.ofBytes b h).bytes = b := by
  rw [Slab.bytes, Slab.ofBytes, take_length, drop_zero]

theorem Slab.length_bytes : ds.bytes.length = ds.stop - ds.start := by
  rw [Slab.bytes, length_drop, length_take, Nat.min_eq_left ds.stop_le]

theorem Slab.hasData_iff : ds.hasData = true ↔ ds.bytes ≠ [] := by
  rw [Slab.hasData, decide_eq_true_eq, ← length_pos_iff, Slab.length_bytes, Nat.sub_pos_iff_lt]

theorem Slab.bytes_eq_nil (h : ds.hasData = false) : ds.bytes = [] := by
  by_contra hne
  rw [Slab.hasData_iff.mpr hne] at h
  cases h

theorem Slab.consume_eq (h : ds.hasData = true) (max : Nat) :
    ∃ ds', ds.consume max = some (ds.bytes.take max, ds') ∧ ds'.bytes = ds.bytes.drop max := by
  have hlt := of_decide_eq_true h
  have htake : (ds.buff.drop ds.start).take (min max (ds.stop - ds.start)) = ds.bytes.take max := by
    rw [Slab.bytes, drop_take, take_take]
  simp only [Slab.consume, if_pos h, htake]
  refine ⟨_, rfl, ?_⟩
  simp only [Slab.bytes, drop_drop]
  rcases Nat.le_total max (ds.stop - ds.start) with hle | hle
  · rw [Nat.min_eq_left hle]
  rw [drop_eq_nil_of_le, drop_eq_nil_of_le]
  all_goals
    rw [length_take]
    omega

end

/-! ## slab の列 -/

/-- 列に残っている byte -/
def content : Bytes := q.flatMap Slab.bytes

/-- `data_slab_sequence_has_data`。初めの空の slab を捨てる。 -/
def sequenceHasData : List Slab → Bool × List Slab
  | [] => (false, [])
  | ds :: q => if ds.hasData then (true, ds :: q) else sequenceHasData q

/-- `data_slab_sequence_shift` -/
def sequenceShift : List Slab → Option (Slab × List Slab)
  | [] => none
  | ds :: q => some (ds, q)

/-- `data_slab_sequence_unshift`。空になった slab は捨てる。 -/
def sequenceUnshift (ds : Slab) : List Slab := if ds.hasData then ds :: q else q

@[simp] theorem content_cons : content (ds :: q) = ds.bytes ++ content q := flatMap_cons

@[simp] theorem content_append (q q' : List Slab) : content (q ++ q') = content q ++ content q' :=
  flatMap_append

theorem sequenceHasData_cases : ∀ q : List Slab,
    (sequenceHasData q = (false, []) ∧ content q = []) ∨
      ∃ ds q', sequenceHasData q = (true, ds :: q') ∧ ds.hasData = true ∧
        content q = ds.bytes ++ content q' ∧ q'.length < q.length
  | [] => .inl ⟨rfl, rfl⟩
  | ds :: q => by
    rw [sequenceHasData, content_cons]
    by_cases hd : ds.hasData = true
    · rw [if_pos hd]
      exact .inr ⟨ds, q, rfl, hd, rfl, Nat.lt_succ_self _⟩
    rw [if_neg hd, Slab.bytes_eq_nil (Bool.eq_false_iff.mpr hd)]
    rcases sequenceHasData_cases q with hnil | ⟨ds', q', heq, hd', hcontent, hlt⟩
    · exact .inl hnil
    · exact .inr ⟨ds', q', heq, hd', hcontent, Nat.lt_succ_of_lt hlt⟩

theorem content_unshift (ds : Slab) : content (sequenceUnshift q ds) = ds.bytes ++ content q := by
  rw [sequenceUnshift]
  split
  · rw [content_cons]
  · rename_i hd
    rw [Slab.bytes_eq_nil (Bool.eq_false_iff.mpr hd), nil_append]

/-! ## network からの読み込み -/

/-- `_client_manage_input` が読んだ slab を列に加える。空の slab は捨てる。 -/
def feed (q slabs : List Slab) : List Slab := q ++ slabs.filter (·.stop ≠ 0)

theorem Slab.bytes_of_stop (h : ¬decide (ds.stop ≠ 0) = true) : ds.bytes = [] := by
  have hlen := ds.length_bytes
  have hzero : ds.stop = 0 := by simpa using h
  exact eq_nil_of_length_eq_zero (by omega)

theorem content_feed (q slabs : List Slab) : content (feed q slabs) = content q ++ content slabs := by
  rw [feed, content_append]
  congr 1
  induction slabs with
  | nil => rfl
  | cons ds slabs ih =>
    rw [filter_cons]
    split
    · rw [content_cons, content_cons, ih]
    · rename_i hstop
      rw [content_cons, ih, ds.bytes_of_stop hstop, nil_append]

end Redcurrant.Server
