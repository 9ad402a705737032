import Mathlib.Data.List.Nodup
import Mathlib.Data.List.TakeWhile

/-!
# service の期限

`cluster/conscience/conscience_srvtype.c`。3 つの関数が別々の式で期限を見て、service の ring を辿る。
-/

namespace Redcurrant.Conscience

open List

/-- `struct conscience_srv_s` -/
structure Srv (I : Type) where
  id : I
  locked : Bool
  timestamp : Int

/-- `struct conscience_srvtype_s`。`services_ht` は ring の service を id で引く表。 -/
structure SrvType (I : Type) where
  ring : List (Srv I)
  scoreExpiration : Int
  ids : (ring.map Srv.id).Nodup

namespace SrvType

variable {I : Type} (st : SrvType I) (now : Int)

/-- `conscience_srvtype_register_srv`。呼ぶ側は id が無いことを先に調べる。 -/
def registerSrv (id : I) (h : id ∉ st.ring.map Srv.id) : SrvType I :=
  ⟨⟨id, false, now⟩ :: st.ring, st.scoreExpiration, nodup_cons.mpr ⟨h, st.ids⟩⟩

def oldest : Int := now - st.scoreExpiration

/-- `conscience_srvtype_remove_expired`。消した数も返す。 -/
def removeExpired : SrvType I × Nat :=
  let expired (srv : Srv I) : Bool := !srv.locked && decide (srv.timestamp < st.oldest now)
  (⟨st.ring.filter fun srv => !expired srv, st.scoreExpiration,
    st.ids.sublist (filter_sublist.map _)⟩, (st.ring.filter expired).length)

/-- callback が偽を返した service で止まる -/
def visit (callback : Srv I → Bool) : List (Srv I) → List (Srv I)
  | [] => []
  | srv :: ring => srv :: if callback srv then visit callback ring else []

/-- `conscience_srvtype_run_all` が callback に渡す service -/
def runAll (callback : Srv I → Bool) (includeExpired : Bool) : List (Srv I) :=
  visit callback (if includeExpired then st.ring
    else st.ring.filter fun srv => srv.locked || decide (st.oldest now < srv.timestamp))

/-- `conscience_srvtype_count_srv` が数える service。期限の切れた最初のもので止まる。 -/
def counted (includeExpired : Bool) : List (Srv I) :=
  if includeExpired then st.ring
  else st.ring.takeWhile fun srv => !decide (srv.timestamp < st.oldest now)

/-- `conscience_srvtype_count_srv` -/
def countSrv (includeExpired : Bool) : Nat := (st.counted now includeExpired).length

/-- 訪れる、残る、数える service が同じ -/
def Agree : Prop :=
  st.runAll now (fun _ => true) false = (st.removeExpired now).1.ring ∧
    st.counted now false = (st.removeExpired now).1.ring

theorem visit_true (ring : List (Srv I)) : visit (fun _ => true) ring = ring := by
  induction ring with
  | nil => rfl
  | cons srv ring ih => rw [visit, if_pos rfl, ih]

/-- lock された service が期限内なら、期限内のものが残る -/
theorem removeExpired_ring
    (hlocked : ∀ srv ∈ st.ring, srv.locked = true → st.oldest now ≤ srv.timestamp) :
    (st.removeExpired now).1.ring =
      st.ring.filter fun srv => !decide (srv.timestamp < st.oldest now) := by
  refine filter_congr fun srv hsrv => ?_
  cases hl : srv.locked with
  | false => simp [hl]
  | true => simp [Int.not_lt.mpr (hlocked srv hsrv hl)]

end SrvType

theorem takeWhile_eq_filter_iff {α : Type} {p : α → Bool} {l : List α} :
    l.takeWhile p = l.filter p ↔ l.Pairwise fun a b => p b = true → p a = true := by
  induction l with
  | nil => simp
  | cons a l ih =>
    rw [takeWhile_cons, filter_cons, pairwise_cons]
    by_cases ha : p a = true
    · simp [ha, ih]
    rw [if_neg ha, if_neg ha, eq_comm, filter_eq_nil_iff]
    refine ⟨fun hnone => ⟨fun b hb hpb => absurd hpb (hnone b hb), ?_⟩, fun h b hb hpb => ?_⟩
    · exact pairwise_of_forall_mem_list fun _ _ b hb hpb => absurd hpb (hnone b hb)
    · exact ha (h.1 b hb hpb)

/-- **3 つが一致するのは lock された service が期限内で、他は期限の日時ちょうどでなく、期限内のものが前に揃うとき。** -/
theorem srvtype_agree_iff {I : Type} (st : SrvType I) (now : Int) : st.Agree now ↔
    (∀ srv ∈ st.ring, if srv.locked then st.oldest now ≤ srv.timestamp
      else srv.timestamp ≠ st.oldest now) ∧
    st.ring.Pairwise fun a b => st.oldest now ≤ b.timestamp → st.oldest now ≤ a.timestamp := by
  have horder := @takeWhile_eq_filter_iff _ (fun srv : Srv I =>
    !decide (srv.timestamp < st.oldest now)) st.ring
  simp only [Bool.not_eq_true', decide_eq_false_iff_not, Int.not_lt] at horder
  rw [SrvType.Agree, SrvType.runAll, SrvType.visit_true, if_neg Bool.false_ne_true]
  constructor
  · rintro ⟨hrun, hcount⟩
    have hmem : ∀ srv ∈ st.ring, (srv ∈ st.ring.filter (fun srv => srv.locked ||
          decide (st.oldest now < srv.timestamp)) ↔ srv ∈ (st.removeExpired now).1.ring) ∧
        (srv ∈ (st.removeExpired now).1.ring → st.oldest now ≤ srv.timestamp) := by
      refine fun srv _ => ⟨by rw [hrun], fun h => ?_⟩
      rw [← hcount] at h
      simpa using mem_takeWhile_imp h
    simp only [SrvType.removeExpired, mem_filter] at hmem
    have hlocked : ∀ srv ∈ st.ring, srv.locked = true → st.oldest now ≤ srv.timestamp :=
      fun srv hsrv hl => (hmem srv hsrv).2 ⟨hsrv, by simp [hl]⟩
    refine ⟨fun srv hsrv => ?_, horder.mp (hcount.trans (st.removeExpired_ring now hlocked))⟩
    split
    · exact hlocked srv hsrv ‹_›
    · rename_i hl
      have := (hmem srv hsrv).1
      simp [hl, hsrv] at this
      omega
  · rintro ⟨hall, hpair⟩
    have hlocked : ∀ srv ∈ st.ring, srv.locked = true → st.oldest now ≤ srv.timestamp := by
      intro srv hsrv hl
      have := hall srv hsrv
      rwa [if_pos hl] at this
    refine ⟨filter_congr fun srv hsrv => ?_,
      (horder.mpr hpair).trans (st.removeExpired_ring now hlocked).symm⟩
    have := hall srv hsrv
    cases hl : srv.locked with
    | true => simp [hl]
    | false =>
      rw [if_neg (by simp [hl])] at this
      rw [Bool.eq_iff_iff]
      simp [hl]
      omega

/-- ちょうど期限の service は訪れないのに、残り、数えられる -/
theorem srvtype_at_oldest : ∃ st : SrvType Nat, st.runAll 100 (fun _ => true) false = [] ∧
    (st.removeExpired 100).1.ring.length = 1 ∧ st.countSrv 100 false = 1 :=
  ⟨⟨[⟨1, false, 90⟩], 10, by decide⟩, rfl, rfl, rfl⟩

end Redcurrant.Conscience
