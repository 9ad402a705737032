import Redcurrant.Infra.Run
import Redcurrant.Metautils.HcUrlOptions

/-!
# URL の書き換えと、残された文字列

全体の文字列と 16 進の id は残されるので、field を書き換えるときに消さなければならない。
-/

namespace Redcurrant.Metautils

open Infra List Option

variable {sha256 : Bytes → Bytes} {u u' : HcUrl}

/-! ## 呼び出し -/

inductive UrlCall
  | set (f : UrlField) (v : Option Bytes)
  | setOption (k : Bytes) (v : Option Bytes)
  | get (f : UrlField)
  deriving DecidableEq

def HcUrl.call (sha256 : Bytes → Bytes) (u : HcUrl) : UrlCall → Option HcUrl
  | .set f v => u.set f v
  | .setOption k v => some (u.setOption k v)
  | .get f => some (u.get sha256 f).1

/-- 同じ field を持つ、新しい URL -/
def HcUrl.fresh (u : HcUrl) : HcUrl :=
  { hcUrlEmpty with ns := u.ns, refname := u.refname, path := u.path, options := u.options }

def nsParts : Option Bytes → Option Bytes × Option Bytes
  | none => (none, none)
  | some ns => (some (splitNs ns).1, (splitNs ns).2)

/-- 返されるものが今の field と合っている -/
structure Coherent (sha256 : Bytes → Bytes) (u : HcUrl) : Prop where
  whole : (u.get sha256 .whole).2 = (u.fresh.get sha256 .whole).2
  hexid : (u.get sha256 .hexid).2 = (u.fresh.get sha256 .hexid).2
  parts : ((u.get sha256 .nsphys).2, (u.get sha256 .nsvirt).2) = nsParts (u.get sha256 .ns).2

/-- 合ったままになる呼び出しの、直前の条件 -/
def HcUrl.Keeps (u : HcUrl) : UrlCall → Prop
  | .set .ns v => ∀ q ∈ v.bind (splitAtChar 46), rstrip q.1 = q.1
  | .set .nsphys v => u.vns = none ∧ 46 ∉ v.getD []
  | .set .nsvirt v => v = none
  | .set .options v => 61 ∈ v.getD [] ∨ u.options = [] ∨ u.whole = none
  | _ => True

instance (u : HcUrl) (call : UrlCall) : Decidable (u.Keeps call) := by
  unfold HcUrl.Keeps
  split <;> infer_instance

/-! ## 残されたもの -/

/-- 新しい URL の全体 -/
def wholeOf (u : HcUrl) : Option Bytes :=
  match u.ns, u.refname with
  | some ns, some refname =>
    some (ns ++ 47 :: refname ++ (u.path.map fun p => 47 :: p).getD [] ++ appendOptions u.options)
  | _, _ => none

/-- 新しい URL の id -/
def hexidOf (sha256 : Bytes → Bytes) (u : HcUrl) : Option Bytes :=
  u.refname.map fun refname => hexUpper (sha256 (hashedName u.ns refname))

theorem get_hexid_of_none (h : u.hexid = none) : (u.get sha256 .hexid).2 = hexidOf sha256 u := by
  rw [HcUrl.get, HcUrl.getHexid, h, hexidOf]
  cases u.refname <;> rfl

theorem get_whole_of_none (hw : u.whole = none) (hh : ∀ h, u.hexid = some h → u.refname ≠ none) :
    (u.get sha256 .whole).2 = wholeOf u := by
  rw [HcUrl.get, HcUrl.getWhole, hw, wholeOf]
  cases hns : u.ns with
  | none => simp [HcUrl.has, hns]
  | some ns =>
    cases hrefname : u.refname with
    | none =>
      have hnone : u.hexid = none := eq_none_iff_forall_ne_some.mpr fun h he => hh h he hrefname
      simp [HcUrl.has, hns, hrefname, hnone]
    | some refname => simp [HcUrl.has, hns, hrefname]

/-- 残されたものが新しい URL のもの -/
structure Cached (sha256 : Bytes → Bytes) (u : HcUrl) : Prop where
  whole : ∀ w, u.whole = some w → wholeOf u = some w
  hexid : ∀ h, u.hexid = some h → hexidOf sha256 u = some h
  parts : (u.pns, u.vns) = nsParts u.ns

theorem Cached.refname (h : Cached sha256 u) : ∀ x, u.hexid = some x → u.refname ≠ none := by
  intro x hx hnone
  have := h.hexid x hx
  rw [hexidOf, hnone] at this
  cases this

/-- **返されるものが合っているのは残されたものが合っているとき。** -/
theorem coherent_iff : Coherent sha256 u ↔ Cached sha256 u := by
  have hfresh : (u.fresh.get sha256 .whole).2 = wholeOf u := get_whole_of_none rfl nofun
  have hfreshId : (u.fresh.get sha256 .hexid).2 = hexidOf sha256 u := get_hexid_of_none rfl
  constructor
  · intro h
    refine ⟨fun w hw => ?_, fun x hx => ?_, h.parts⟩
    · rw [← hfresh, ← h.whole, HcUrl.get, HcUrl.getWhole, hw]
    · rw [← hfreshId, ← h.hexid, HcUrl.get, HcUrl.getHexid, hx]
  · intro h
    refine ⟨?_, ?_, h.parts⟩
    · rw [hfresh]
      cases hw : u.whole with
      | none => exact get_whole_of_none hw h.refname
      | some w => rw [h.whole w hw, HcUrl.get, HcUrl.getWhole, hw]
    rw [hfreshId]
    cases hx : u.hexid with
    | none => exact get_hexid_of_none hx
    | some x => rw [h.hexid x hx, HcUrl.get, HcUrl.getHexid, hx]

theorem cached_of_parts (hw : u.whole = none) (hh : u.hexid = none)
    (hparts : (u.pns, u.vns) = nsParts u.ns) : Cached sha256 u := by
  refine ⟨fun w he => ?_, fun x he => ?_, hparts⟩
  · rw [hw] at he
    cases he
  · rw [hh] at he
    cases he

/-! ## namespace の部分 -/

theorem splitNs_of_notMem {ns : Bytes} (h : 46 ∉ ns) : splitNs ns = (ns, none) := by
  rw [splitNs, splitAtChar_eq_none.mpr h]

theorem splitNs_append {p v : Bytes} (h : 46 ∉ p) :
    splitNs (p ++ 46 :: v) = (p, some (46 :: v)) := by
  rw [splitNs, splitAtChar_append h]

theorem rstrip_dot (p v : Bytes) : rstrip (p ++ 46 :: v) = p ++ 46 :: rstrip v := by
  induction v using List.reverseRecOn with
  | nil =>
    rw [rstrip, rdropWhile_concat_neg _ _ _ (by decide)]
    rfl
  | append_singleton v b ih =>
    rw [← cons_append, ← append_assoc, rstrip, rstrip]
    by_cases hb : b = 47
    · rw [rdropWhile_concat_pos _ _ _ (by simp [hb]), rdropWhile_concat_pos _ _ _ (by simp [hb])]
      exact ih
    rw [rdropWhile_concat_neg _ _ _ (by simpa using hb),
      rdropWhile_concat_neg _ _ _ (by simpa using hb)]
    simp

/-- **読んだ namespace が 2 つの部分に分かれるのは点の直前に `/` が無いとき。** -/
theorem parts_parseNs (ns : Bytes) :
    (some (rstrip (splitNs ns).1), (splitNs ns).2.map rstrip) = nsParts (some (rstrip ns)) ↔
      ∀ q ∈ splitAtChar 46 ns, rstrip q.1 = q.1 := by
  cases hsplit : splitAtChar 46 ns with
  | none =>
    have hdot := splitAtChar_eq_none.mp hsplit
    have hdot' : 46 ∉ rstrip ns := by
      obtain ⟨slashes, hns⟩ := rstrip_append ns
      exact fun h => hdot (hns ▸ mem_append_left _ h)
    refine iff_of_true ?_ nofun
    rw [nsParts, splitNs_of_notMem hdot, splitNs_of_notMem hdot']
    rfl
  | some q =>
    obtain ⟨p, v⟩ := q
    obtain ⟨rfl, hp⟩ := eq_append_of_splitAtChar hsplit
    have hv : rstrip (46 :: v) = 46 :: rstrip v := rstrip_dot [] v
    rw [nsParts, rstrip_dot, splitNs_append hp, splitNs_append hp, map_some, hv]
    simp

/-! ## 書き換え -/

theorem parts_of_parseNs {x : HcUrl} (hpns : x.pns = none) (hvns : x.vns = none)
    (v : Option Bytes) :
    ((({ x with ns := v } : HcUrl).parseNs.pns, ({ x with ns := v } : HcUrl).parseNs.vns) =
      nsParts ({ x with ns := v } : HcUrl).parseNs.ns) ↔
      ∀ q ∈ v.bind (splitAtChar 46), rstrip q.1 = q.1 := by
  cases v with
  | none => exact iff_of_true (Prod.ext hpns hvns) nofun
  | some ns =>
    rw [bind_some, ← parts_parseNs]
    simp only [HcUrl.parseNs, hvns]
    cases (splitNs ns).2 <;> rfl

theorem rstrip_before_dot {n slashes : Bytes} (hn : 47 ∉ n) (hall : ∀ b ∈ slashes, b = 47) :
    ∀ q ∈ splitAtChar 46 (n ++ slashes), rstrip q.1 = q.1 := by
  rintro ⟨p, v⟩ hq
  have hdot : 46 ∈ n := by
    by_contra hdot
    have hnone : 46 ∉ n ++ slashes := by
      intro h
      rcases mem_append.mp h with h | h
      · exact hdot h
      · exact absurd (hall _ h) (by decide)
    rw [splitAtChar_eq_none.mpr hnone] at hq
    cases hq
  obtain ⟨p', v', rfl, hp'⟩ := eq_append_cons_of_mem hdot
  rw [append_assoc, cons_append, splitAtChar_append hp'] at hq
  cases hq
  exact rstrip_eq_self fun h => hn (mem_append_left _ h)

theorem options_of_tail (hw : u.whole = none) (tail : Bytes) : ∃ options,
    (if 63 ∈ tail then u.parseOptions ((queryText tail).map Prod.snd) else u) =
      { u with options := options } := by
  split
  · rw [parseOptions_eq, hw, ite_self]
    exact ⟨_, rfl⟩
  · exact ⟨u.options, rfl⟩

theorem cached_parseUrl (hns : u.ns = none) (hpns : u.pns = none) (hvns : u.vns = none)
    (hw : u.whole = none) (hh : u.hexid = none) (str : Bytes) :
    Cached sha256 (u.parseUrl str).1 := by
  unfold HcUrl.parseUrl
  dsimp only
  split
  · exact cached_of_parts hw hh (by rw [hpns, hvns, hns]; rfl)
  split
  · rename_i hsplit
    have hbody := @rstrip_before_dot (urlBody str) [] (splitAtChar_eq_none.mp hsplit) nofun
    rw [append_nil] at hbody
    have hparts := (parts_of_parseNs hpns hvns (some (urlBody str))).mpr hbody
    exact cached_of_parts hw hh hparts
  rename_i n rest hsplit
  obtain ⟨hbody, hn⟩ := eq_append_of_splitAtChar hsplit
  obtain ⟨slashes, htake, hall⟩ := take_ns n rest
  obtain ⟨options, hoptions⟩ := options_of_tail hw ((pathText (lstrip rest)).getD (lstrip rest))
  have hparts : ((({ u with options := options, ns := some (n ++ slashes) } : HcUrl).parseNs.pns,
      ({ u with options := options, ns := some (n ++ slashes) } : HcUrl).parseNs.vns) =
      nsParts ({ u with options := options, ns := some (n ++ slashes) } : HcUrl).parseNs.ns) :=
    (@parts_of_parseNs { u with options := options } hpns hvns (some (n ++ slashes))).mpr
      (rstrip_before_dot hn hall)
  simp only [hbody, htake, hoptions]
  split
  · exact cached_of_parts hw hh hparts
  · exact cached_of_parts hw hh hparts

theorem Cached.dot_notMem_pns (h : Cached sha256 u) : ∀ p, u.pns = some p → 46 ∉ p := by
  intro p hp
  have hpns : u.pns = (nsParts u.ns).1 := congrArg Prod.fst h.parts
  rw [hp] at hpns
  cases hns : u.ns with
  | none =>
    rw [hns] at hpns
    cases hpns
  | some ns =>
    rw [hns, nsParts, splitNs] at hpns
    cases hsplit : splitAtChar 46 ns with
    | none =>
      rw [hsplit] at hpns
      cases hpns
      exact splitAtChar_eq_none.mp hsplit
    | some q =>
      rw [hsplit] at hpns
      cases hpns
      exact (eq_append_of_splitAtChar hsplit).2

theorem Cached.ns_eq_pns (h : Cached sha256 u) (hvns : u.vns = none) : u.ns = u.pns := by
  have hpns : u.pns = (nsParts u.ns).1 := congrArg Prod.fst h.parts
  have hnone : u.vns = (nsParts u.ns).2 := congrArg Prod.snd h.parts
  rw [hvns] at hnone
  rw [hpns]
  cases hns : u.ns with
  | none => rfl
  | some ns =>
    rw [hns, nsParts, splitNs] at hnone
    rw [nsParts, splitNs]
    cases hsplit : splitAtChar 46 ns with
    | none => rfl
    | some q =>
      rw [hsplit] at hnone
      cases hnone

theorem hashedName_of_notMem {ns : Option Bytes} (h : ∀ p, ns = some p → 46 ∉ p)
    (refname : Bytes) : hashedName ns refname = refname := by
  cases ns with
  | none => rfl
  | some p => rw [hashedName, if_neg (h p rfl)]

theorem parts_joinNs (p v : Option Bytes) :
    (p, v) = nsParts (joinNs p v) ↔ v = none ∧ ∀ x, p = some x → 46 ∉ x := by
  cases p with
  | none => cases v <;> simp [joinNs, nsParts]
  | some p =>
    cases v with
    | none =>
      change (some p, none) = (some (splitNs p).1, (splitNs p).2) ↔ _
      by_cases hdot : 46 ∈ p
      · obtain ⟨a, b, rfl, ha⟩ := eq_append_cons_of_mem hdot
        simp [splitNs_append ha]
      · simp [splitNs_of_notMem hdot, hdot]
    | some v =>
      refine iff_of_false (fun h => ?_) (by simp)
      have hv : some v = (splitNs (p ++ 46 :: v)).2 := congrArg Prod.snd h
      have hmem : 46 ∈ p ++ 46 :: v := by simp
      obtain ⟨a, b, hab, ha⟩ := eq_append_cons_of_mem hmem
      have hp : p = a := by
        have := congrArg Prod.fst h
        rw [joinNs, nsParts, hab, splitNs_append ha] at this
        exact some.inj this
      subst hp
      rw [splitNs_append ha] at hv
      have := congrArg List.length (some.inj hv)
      simp at this

theorem cached_set_ns (v : Option Bytes) : Cached sha256 ({ u with
    ns := v, pns := none, vns := none, whole := none, hexid := none } : HcUrl).parseNs ↔
    ∀ q ∈ v.bind (splitAtChar 46), rstrip q.1 = q.1 := by
  rw [← @parts_of_parseNs { u with pns := none, vns := none, whole := none, hexid := none } rfl rfl v]
  refine ⟨Cached.parts, cached_of_parts ?_ ?_⟩
  · cases v <;> rfl
  · cases v <;> rfl

theorem Cached.set_nsphys (h : Cached sha256 u) (v : Option Bytes) :
    Cached sha256 { u with ns := joinNs v u.vns, pns := v, whole := none } ↔
      u.vns = none ∧ 46 ∉ v.getD [] := by
  have hdot : (∀ x, v = some x → 46 ∉ x) ↔ 46 ∉ v.getD [] := by cases v <;> simp
  rw [← hdot]
  refine ⟨fun h' => (parts_joinNs _ _).mp h'.parts, fun hv => ?_⟩
  refine ⟨nofun, fun x hx => ?_, (parts_joinNs _ _).mpr hv⟩
  -- id は残るが、点の無い namespace は id に関わらない
  have hns : joinNs v u.vns = v := by
    rw [hv.1]
    cases v <;> rfl
  have hexid := h.hexid x hx
  rw [hexidOf, h.ns_eq_pns hv.1] at hexid
  rw [← hexid, hns]
  refine congrArg (Option.map · u.refname) (funext fun refname => ?_)
  rw [hashedName_of_notMem hv.2, hashedName_of_notMem h.dot_notMem_pns]

theorem Cached.set_nsvirt (h : Cached sha256 u) (v : Option Bytes) :
    Cached sha256 { u with ns := joinNs u.pns v, vns := v, whole := none, hexid := none } ↔
      v = none := by
  constructor
  · intro h'
    exact ((parts_joinNs _ _).mp h'.parts).1
  · intro hv
    exact ⟨nofun, nofun, (parts_joinNs _ _).mpr ⟨hv, h.dot_notMem_pns⟩⟩

theorem options_of_wholeOf {w : Bytes} (h : wholeOf u = some w)
    (h' : wholeOf { u with options := [] } = some w) : u.options = [] := by
  unfold wholeOf at h h'
  cases hns : u.ns with
  | none =>
    rw [hns] at h
    cases h
  | some ns =>
    cases hrefname : u.refname with
    | none =>
      rw [hns, hrefname] at h
      cases h
    | some refname =>
      simp only [hns, hrefname] at h h'
      have happend := append_cancel_left ((some.inj h).trans (some.inj h').symm)
      by_contra hne
      rw [appendOptions, if_neg (by simpa using hne)] at happend
      cases happend

section

variable (h : Cached sha256 u)
include h

theorem Cached.set_options (v : Option Bytes) :
    Cached sha256 (u.parseOptions v) ↔ 61 ∈ v.getD [] ∨ u.options = [] ∨ u.whole = none := by
  rw [parseOptions_eq]
  by_cases hv : 61 ∈ v.getD []
  · rw [if_pos hv]
    exact iff_of_true ⟨nofun, h.hexid, h.parts⟩ (.inl hv)
  have hnil : (strsplit 38 0 (v.getD [])).foldl addPiece [] = [] := by
    refine eq_nil_iff_forall_not_mem.mpr fun piece hpiece => hv ?_
    exact (mem_strsplit_iff (c := 38) (by decide)).mp ⟨piece, (foldl_addPiece_nil _).2 piece hpiece⟩
  rw [if_neg hv, hnil, or_iff_right hv]
  constructor
  · intro h'
    cases hw : u.whole with
    | none => exact .inr rfl
    | some w => exact .inl (options_of_wholeOf (h.whole w hw) (h'.whole w hw))
  · rintro (hnil | hw)
    · refine ⟨fun w hw => ?_, h.hexid, h.parts⟩
      rw [← h.whole w hw, wholeOf, wholeOf, hnil]
    · exact ⟨fun w hw' => absurd (hw.symm.trans hw') nofun, h.hexid, h.parts⟩

theorem Cached.getHexid : Cached sha256 (u.getHexid sha256).1 := by
  unfold HcUrl.getHexid
  split
  · exact h
  split
  · exact h
  rename_i refname hrefname
  refine ⟨h.whole, fun x hx => ?_, h.parts⟩
  cases hx
  rw [hrefname]
  rfl

theorem Cached.getWhole : Cached sha256 (u.getWhole sha256).1 := by
  unfold HcUrl.getWhole
  cases hw : u.whole with
  | some w => exact h
  | none =>
    dsimp only
    split
    · exact h
    rename_i hhas
    cases hns : u.ns with
    | none => simp [HcUrl.has, hns] at hhas
    | some ns =>
      cases hrefname : u.refname with
      | none =>
        -- reference が無ければ id も無く、全体は作られない
        have hnone : u.hexid = none :=
          eq_none_iff_forall_ne_some.mpr fun x hx => h.refname x hx hrefname
        simp [HcUrl.has, hrefname, hnone] at hhas
      | some refname =>
        refine ⟨fun w hw => ?_, h.hexid, h.parts⟩
        rw [← hw, wholeOf]
        simp [hns, hrefname]

theorem Cached.get (f : UrlField) : Cached sha256 (u.get sha256 f).1 := by
  cases f with
  | whole => exact h.getWhole
  | hexid => exact h.getHexid
  | _ => exact h

/-- **呼び出しは条件を満たすときだけ合ったままにする。** -/
theorem cached_call_iff {call : UrlCall} (hcall : u.call sha256 call = some u') :
    Cached sha256 u' ↔ u.Keeps call := by
  cases call with
  | get f =>
    cases hcall
    exact iff_of_true (h.get f) trivial
  | setOption k v =>
    cases hcall
    exact iff_of_true ⟨nofun, h.hexid, h.parts⟩ trivial
  | set f v =>
    cases f with
    | ns =>
      cases hcall
      exact cached_set_ns v
    | nsphys =>
      cases hcall
      exact h.set_nsphys v
    | nsvirt =>
      cases hcall
      exact h.set_nsvirt v
    | reference =>
      cases hcall
      exact iff_of_true ⟨nofun, nofun, h.parts⟩ trivial
    | path =>
      cases hcall
      exact iff_of_true ⟨nofun, h.hexid, h.parts⟩ trivial
    | options =>
      cases hcall
      exact h.set_options v
    | version | snapshot | snaporvers =>
      cases hcall
      exact iff_of_true ⟨nofun, h.hexid, h.parts⟩ trivial
    | whole =>
      cases v with
      | none => cases hcall
      | some v =>
        cases hcall
        exact iff_of_true (cached_parseUrl rfl rfl rfl rfl rfl v) trivial
    | hexid => cases hcall

end

/-! ## run -/

def Created (u : HcUrl) : Prop := u = hcUrlEmpty ∨ ∃ str, hcUrlInit str = some u

theorem cached_created (h : Created u) : Cached sha256 u := by
  rcases h with rfl | ⟨str, hinit⟩
  · exact ⟨nofun, nofun, rfl⟩
  unfold hcUrlInit at hinit
  have hparse : Cached sha256 (hcUrlEmpty.parseUrl str).1 := cached_parseUrl rfl rfl rfl rfl rfl str
  split at hinit
  · rename_i x hx
    cases hinit
    rwa [hx] at hparse
  · cases hinit

/-- **どの状態でも合っているのはどの呼び出しも条件を満たすとき。** -/
theorem coherent_throughout_iff (sha256 : Bytes → Bytes) (h : Created u) (calls : List UrlCall) :
    Throughout (HcUrl.call sha256) (Coherent sha256) u calls ↔
      EachStep (HcUrl.call sha256) HcUrl.Keeps u calls := by
  refine throughout_iff (fun _ => True) (fun {a b call} _ ha hcall => ⟨?_, fun _ => trivial⟩) calls
    trivial (coherent_iff.mpr (cached_created h))
  rw [coherent_iff]
  exact cached_call_iff (coherent_iff.mp ha) hcall

/-- 名前空間と option を書き換える列で、合ったままになる -/
theorem coherent_renamed : Throughout (HcUrl.call id) (Coherent id) hcUrlEmpty
    [.set .whole (some (ascii "ns.v/ref?a=1")), .get .whole, .get .hexid,
      .set .ns (some (ascii "other")), .set .nsphys (some (ascii "third")), .get .hexid,
      .set .options (some (ascii "b=2")), .get .whole, .set .path (some (ascii "p"))] := by
  exact (coherent_throughout_iff id (.inl rfl) _).mpr (by decide)

/-- 全体を返した後で option を空にすると、次の全体は古い -/
theorem stale_whole : ∃ u, hcUrlInit (ascii "ns/ref?a=1") = some u ∧
    ¬Throughout (HcUrl.call id) (Coherent id) u [.get .whole, .set .options none] := by
  refine ⟨_, rfl, fun h => ?_⟩
  have hlast : Coherent id _ := (h.2 _ rfl).2 _ rfl
  exact absurd hlast.whole (by decide)

end Redcurrant.Metautils
