import Mathlib.Data.List.Perm.Subperm
import Redcurrant.Metautils.LbLocation

/-!
# 選ばれうる service の組

shorten しない pool では条件を満たす組はどれも乱数しだいで返る（`nextSet2_reaches`）。
-/

namespace Redcurrant.Metautils

open Infra List

structure Admissible (services : List ServiceInfo) (ext : LbOptExt) (l : List ServiceInfo) :
    Prop where
  mem : ∀ s ∈ l, s ∈ services
  accepted : ∀ s ∈ l, extOptFilter ext s = true
  distinct : l.Pairwise fun a b => a.addr.key ≠ b.addr.key
  spaced : l.Pairwise (Spaced ext.req.distance)
  length_eq : l.length = ext.req.max

variable {ext : LbOptExt} {l : List ServiceInfo}

theorem Admissible.of_nextSet2 {lb : Lb} {draws : Nat → Draw} {it it' : LbIterator}
    (hdup : ext.req.duplicates = false) (h : nextSet2 lb draws ext it = some (some l, it')) :
    Admissible lb.services ext l := by
  obtain ⟨hl, hmem⟩ := nextSet_chosen h
  exact ⟨hmem, fun s hs => (hl.accepts s hs).1, hl.distinct hdup, hl.spaced, hl.length_eq⟩

theorem ne_nil_of_nextSet2 {lb : Lb} {draws : Nat → Draw} {it it' : LbIterator}
    (h : nextSet2 lb draws ext it = some (some l, it')) : l ≠ [] := by
  have hlen : l.length = ext.req.max := (nextSet_chosen h).1.length_eq
  rw [nextSet2, nextSet] at h
  split at h
  · cases h
  rename_i hmax
  rintro rfl
  exact hmax (.inl hlen.symm)

/-- shorten しない設定 -/
def Lb.full (lb : Lb) : Lb :=
  { lb with
    sizeMax := lb.services.length
    sizeMax_le := Nat.le_refl _
    sizeMax_pos := length_pos_iff.mpr }

def LocatedFirst (l : List ServiceInfo) : Prop :=
  l.Pairwise fun a b => b.location ≠ none → a.location ≠ none

section

variable {lb : Lb} {draws : Nat → Draw} {opt : LbOpt} {d : Nat}

theorem exists_locatedFirst (l : List ServiceInfo) :
    ∃ l' : List ServiceInfo, l'.Perm l ∧ LocatedFirst l' := by
  refine ⟨l.filter (·.location.isSome) ++ l.filter (fun s => !s.location.isSome),
    filter_append_perm _ l, ?_⟩
  refine pairwise_append.mpr ⟨?_, ?_, ?_⟩
  · refine pairwise_of_forall_mem_list fun a ha b _ _ => ?_
    exact Option.isSome_iff_ne_none.mp (mem_filter.mp ha).2
  · refine pairwise_of_forall_mem_list fun a _ b hb h => ?_
    have hb := (mem_filter.mp hb).2
    simp only [Bool.not_eq_true', Option.isSome_eq_false_iff, Option.isNone_iff_eq_none] at hb
    exact absurd hb h
  · intro a ha b _ _
    exact Option.isSome_iff_ne_none.mp (mem_filter.mp ha).2

theorem distanceFits_of_spaced {polled : List ServiceInfo} {si : ServiceInfo}
    (hloc : ∀ v ∈ polled, si.location ≠ none → v.location ≠ none)
    (hspaced : ∀ v ∈ polled, Spaced d v si) : distanceFits d polled si = some true := by
  rw [distanceFits]
  split
  · rfl
  cases hsi : si.location with
  | none => rfl
  | some loc =>
    simp only
    induction polled with
    | nil => rfl
    | cons v l ih =>
      obtain ⟨lv, hlv⟩ := Option.ne_none_iff_exists'.mp (hloc v mem_cons_self (by simp [hsi]))
      have hd := (hspaced v mem_cons_self).symm loc lv hsi hlv
      rw [distanceFitsFrom, hlv, distanceBetweenLocation]
      simp only [if_neg (not_lt.mpr hd)]
      exact ih (fun x hx => hloc x (mem_cons_of_mem _ hx))
        fun x hx => hspaced x (mem_cons_of_mem _ hx)

end

/-- **乱数が指した順に service が選ばれる。** 選んでいない service の列の帰納法。 -/
theorem searchLoop_picks (lb : Lb) (draws : Nat → Draw) (opt : LbOpt) {limit : Nat}
    (hlimit : 0 < limit) (hdup : opt.req.duplicates = false) :
    ∀ (l polled : List ServiceInfo) (calls : Nat), (∀ s ∈ l, filterMatches opt.filter s = true) →
      (∀ i s, l[i]? = some s → lb.getByScore ((draws (calls + i)).rand % 2 ^ 32) = some s) →
      polled.length + l.length = opt.req.max →
      (polled ++ l).Pairwise (fun a b => a.addr.key ≠ b.addr.key) →
      (polled ++ l).Pairwise (Spaced opt.req.distance) →
      (∀ a ∈ polled, ∀ b ∈ l, b.location ≠ none → a.location ≠ none) → LocatedFirst l →
      ∃ polled', searchLoop lb draws opt none true limit ⟨.shared .rand, calls, polled⟩ =
        some ⟨.shared .rand, calls + l.length, polled'⟩ ∧ polled'.Perm (polled ++ l)
  | [], polled, calls, _, _, hlen, _, _, _, _ => by
    refine ⟨polled, ?_, by simp⟩
    have hfull : ¬ polled.length < opt.req.max := by
      rw [length_nil] at hlen
      omega
    rw [searchLoop, if_neg fun hlt => hfull hlt.2]
    rfl
  | s :: l, polled, calls, hfilter, hpick, hlen, hkey, hspaced, hloc, hfirst => by
    rw [length_cons] at hlen
    have hpermMid : (polled ++ s :: l).Perm (s :: polled ++ l) := perm_middle
    have hnext : lb.next (draws calls) true (.shared .rand) = (some s, .shared .rand) := by
      have h0 := hpick 0 s rfl
      rw [Nat.add_zero] at h0
      rw [Lb.next, Lb.next, h0]
    have hfar : ∀ v ∈ polled, Spaced opt.req.distance v s := fun v hv =>
      (pairwise_append.mp hspaced).2.2 v hv s mem_cons_self
    have hadm : opt.admits none polled s = some true := by
      rw [LbOpt.admits, hfilter s mem_cons_self]
      exact distanceFits_of_spaced (fun v hv => hloc v hv s mem_cons_self) hfar
    have hnew : opt.present polled s = false := by
      simp only [LbOpt.present, hdup, Bool.not_false, Bool.true_and, any_eq_false,
        addrInfoEqual_iff]
      exact fun v hv => (pairwise_append.mp hkey).2.2 v hv s mem_cons_self
    have hperm := perm_insert opt (draws calls) polled s
    have hpermAll : (opt.insert (draws calls) polled s ++ l).Perm (polled ++ s :: l) :=
      (hperm.append_right l).trans hpermMid.symm
    obtain ⟨polled', hrun, hperm'⟩ := searchLoop_picks lb draws opt hlimit hdup l
      (opt.insert (draws calls) polled s) (calls + 1)
      (fun x hx => hfilter x (mem_cons_of_mem _ hx))
      (fun i x hx => by
        have := hpick (i + 1) x (by simpa using hx)
        rwa [show calls + (i + 1) = calls + 1 + i from by omega] at this)
      (by rw [LbOpt.length_insert]; omega)
      ((hpermAll.pairwise_iff fun h => Ne.symm h).mpr hkey)
      ((hpermAll.pairwise_iff Spaced.symm).mpr hspaced)
      (fun a ha b hb => by
        rcases mem_cons.mp (hperm.mem_iff.mp ha) with rfl | ha
        · exact (pairwise_cons.mp hfirst).1 b hb
        · exact hloc a ha b (mem_cons_of_mem _ hb))
      (pairwise_cons.mp hfirst).2
    refine ⟨polled', ?_, hperm'.trans hpermAll⟩
    rw [searchLoop, if_pos ⟨hlimit, by simp only; omega⟩, hnext]
    simp only [hadm, hnew, Bool.false_eq_true, if_false]
    rw [hrun, length_cons, Nat.add_assoc, Nat.add_comm 1]

/-- **shorten しない pool では条件を満たす組はどれも選ばれうる。** -/
theorem nextSet2_reaches (lb0 : Lb) (hdup : ext.req.duplicates = false)
    (hclass : ext.req.stgclass = none) (hshuffle : ext.req.shuffle = false) (hpos : 0 < ext.req.max)
    (h : Admissible lb0.services ext l) :
    ∃ draws l', nextSet2 lb0.full draws ext (.shared .rand) = some (some l', .shared .rand) ∧
      l'.Perm l := by
  have hfull : lb0.full.sizeMax = lb0.full.services.length := rfl
  generalize hlb : lb0.full = lb at hfull ⊢
  have hservices : lb0.services = lb.services := by rw [← hlb]; rfl
  rw [hservices] at h
  obtain ⟨l1, hperm, hfirst⟩ := exists_locatedFirst l
  obtain ⟨slot, hslot⟩ : ∃ slot : ServiceInfo → Nat, ∀ s ∈ lb.services,
      slot s < lb.services.length ∧ lb.getSlot (slot s) = some s := by
    classical
    refine ⟨fun s => if hs : s ∈ lb.services then (lb.exists_slot_of_mem hs).choose else 0, ?_⟩
    intro s hs
    simp only [dif_pos hs]
    exact (lb.exists_slot_of_mem hs).choose_spec
  have hlt := lb.length_lt
  have hmem1 : ∀ s ∈ l1, s ∈ lb.services := fun s hs => h.mem s (hperm.mem_iff.mp hs)
  have hkey1 := (hperm.pairwise_iff fun h => Ne.symm h).mpr h.distinct
  have hlen1 : l1.length = ext.req.max := hperm.length_eq.trans h.length_eq
  have hle : ext.req.max ≤ lb.services.length := by
    have hnodup : l1.Nodup := hkey1.imp fun {a b} hne he => hne (congrArg (·.addr.key) he)
    rw [← hlen1]
    exact (subperm_of_subset hnodup hmem1).length_le
  let draws : Nat → Draw := fun c => ⟨(l1[c]?.map slot).getD 0, 0, 0, 0⟩
  have hpick : ∀ i s, l1[i]? = some s → lb.getByScore ((draws (0 + i)).rand % 2 ^ 32) = some s := by
    intro i s hs
    obtain ⟨hj, hget⟩ := hslot s (hmem1 s (mem_of_getElem? hs))
    have hrand : (draws (0 + i)).rand = slot s := by simp [draws, hs]
    rw [hrand, Nat.mod_eq_of_lt (hj.trans hlt), Lb.getByScore, hfull, if_neg (by omega),
      Nat.mod_eq_of_lt hj, hget]
  have hlimit : 0 < lb.services.length := by omega
  obtain ⟨polled, hrun, hpolled⟩ := searchLoop_picks lb draws ⟨ext.req, some (extOptFilter ext)⟩
    hlimit hdup l1 [] 0
    (fun s hs => by
      have := h.accepted s (hperm.mem_iff.mp hs)
      simpa [filterMatches] using this)
    hpick (by simpa using hlen1) hkey1 ((hperm.pairwise_iff Spaced.symm).mpr h.spaced)
    (by simp) hfirst
  rw [nil_append] at hpolled
  have hlen : polled.length = ext.req.max := hpolled.length_eq.trans hlen1
  have hfrom : nextSetFrom lb draws ⟨ext.req, some (extOptFilter ext)⟩ ⟨.shared .rand, 0, []⟩ =
      some ⟨.shared .rand, 0 + l1.length, polled⟩ := by
    have hname : ext.req.stgclass.bind (·.name) = none := by rw [hclass]; rfl
    have hclasses : (LbOpt.mk ext.req (some (extOptFilter ext))).classes = [none] := by
      simp [LbOpt.classes, hclass]
    rw [nextSetFrom, hclasses]
    simp only [hname]
    rw [searchServers]
    have hbudget : lb.iterationLimit true (.shared .rand) = lb.services.length := rfl
    rw [hbudget, hrun, Option.bind_some, foldlM_cons, searchMore, if_neg (by simp only; omega)]
    rfl
  refine ⟨draws, polled, ?_, hpolled.trans hperm⟩
  rw [nextSet2, nextSet, if_neg (by simp only [hdup, true_and]; omega), hfrom, Option.map_some]
  simp only [hshuffle, Bool.false_eq_true, if_false]
  rw [if_neg (by omega)]

end Redcurrant.Metautils
