import Redcurrant.Meta1.Services
import Redcurrant.Metautils.LbReach

/-!
# すでに結ばれた service

`__srvinfo_from_m1srvurl` は host の全体を 1 つの番地として読むので、複数の番地を持つ行の service は除かれない。
-/

namespace Redcurrant.Meta1

open Infra Metautils Option List

variable (t : ServiceTable)

/-- その reference と型の行 -/
def rowsOf (cid srvtype : Bytes) : List ServiceRow := t.rows.filter (ServiceRow.isOf cid srvtype)

/-- host の一部 `part` が番地 `a` の service を指す -/
def Denotes (part : Bytes) (a : AddrInfo) : Prop :=
  part = addrText a ∨ ∃ b, gridStringToAddrinfo false part = some b ∧ b.key = a.key

/-- 番地 `a` の service が reference に結ばれている -/
def Linked (cid srvtype : Bytes) (a : AddrInfo) : Prop :=
  ∃ r ∈ rowsOf t cid srvtype, ∃ part ∈ splitHost r.url, Denotes part a

/-- **どの pool、iterator、複製の数でも、選んだ service は結ばれていない。** -/
def NeverRelinks (cid : Bytes) (ct : CompoundType) (fnmatch : Option Bytes → Bytes → Bool)
    (pool : Lb) : Prop :=
  ∀ (env : Env) (lb : Lb) (it it' : LbIterator) (replicas : Nat) (l : List ServiceInfo),
    env.fnmatch = fnmatch → lb.services = pool.services →
    pollAnswer env lb it replicas ct (getContainerAllServices t cid ct.type) = some (some l, it') →
    ∀ s ∈ l, ¬ Linked t cid ct.type s.addr

/-- 番地がある行の host の全体として pool から引ける -/
def LinkedAlone (cid srvtype : Bytes) (services : List ServiceInfo) (a : AddrInfo) : Prop :=
  ∃ r ∈ rowsOf t cid srvtype, ∃ s ∈ services,
    gridStringToAddrinfo true (r.url.take 254) = some s.addr ∧ s.addr.key = a.key

theorem getContainerAllServices_eq {t : ServiceTable} {cid srvtype : Bytes} (h : srvtype ≠ []) :
    getContainerAllServices t cid srvtype = (rowsOf t cid srvtype).map ServiceRow.read := by
  rw [getContainerAllServices, if_neg (by simpa using h)]
  rfl

theorem getServiceFromUrl_eq_some {services : List ServiceInfo} {einval : Bool} {url : Bytes}
    {s : ServiceInfo} (h : getServiceFromUrl services einval url = some s) :
    gridStringToAddrinfo einval url = some s.addr ∧ s ∈ services := by
  obtain ⟨a, ha, hs⟩ := bind_eq_some_iff.mp h
  have heq := find?_some hs
  rw [decide_eq_true_eq] at heq
  exact ⟨heq ▸ ha, mem_of_find?_eq_some hs⟩

theorem mem_srvinfoFromM1srvurl {services : List ServiceInfo} {errno : Nat → Bool}
    {urls : List ServiceUrl} {s : ServiceInfo} :
    s ∈ srvinfoFromM1srvurl services errno urls ↔
      ∃ i u, urls[i]? = some u ∧ getServiceFromUrl services (errno i) u.host = some s := by
  simp only [srvinfoFromM1srvurl, mem_reverse, mem_filterMap, Prod.exists, mem_zipIdx_iff_getElem?]
  constructor
  · rintro ⟨u, i, hu, hs⟩
    exact ⟨i, u, hu, hs⟩
  · rintro ⟨i, u, hu, hs⟩
    exact ⟨u, i, hu, hs⟩

section

variable {t : ServiceTable} {cid : Bytes} {ct : CompoundType} {services : List ServiceInfo}
  {s : ServiceInfo}

theorem forbidden_of_linkedAlone (errno : Nat → Bool) (h : LinkedAlone t cid ct.type services s.addr) :
    ∃ s0 ∈ srvinfoFromM1srvurl services errno (getContainerAllServices t cid ct.type),
      s.addr.key = s0.addr.key := by
  obtain ⟨r, hr, s1, hs1, hparse, hkey⟩ := h
  obtain ⟨i, hi⟩ := mem_iff_getElem?.mp hr
  have hurl : (getContainerAllServices t cid ct.type)[i]? = some r.read := by
    rw [getContainerAllServices_eq ct.type_ne, getElem?_map, hi, map_some]
  have hread : gridStringToAddrinfo (errno i) r.read.host = some s1.addr := by
    cases errno i with
    | true => exact hparse
    | false => exact gridStringToAddrinfo_mono hparse
  obtain ⟨s0, hs0⟩ : ∃ s0, getServiceFromAddr services s1.addr = some s0 := by
    refine isSome_iff_exists.mp (find?_isSome.mpr ⟨s1, hs1, ?_⟩)
    exact decide_eq_true rfl
  have hget : getServiceFromUrl services (errno i) r.read.host = some s0 := by
    rw [getServiceFromUrl, hread, bind_some, hs0]
  refine ⟨s0, mem_srvinfoFromM1srvurl.mpr ⟨i, r.read, hurl, hget⟩, ?_⟩
  have haddr := find?_some hs0
  rw [decide_eq_true_eq] at haddr
  rw [haddr, hkey]

theorem linkedAlone_of_forbidden {s0 : ServiceInfo}
    (h : s0 ∈ srvinfoFromM1srvurl services (fun _ => true)
      (getContainerAllServices t cid ct.type)) (hkey : s.addr.key = s0.addr.key) :
    LinkedAlone t cid ct.type services s.addr := by
  obtain ⟨i, u, hu, hget⟩ := mem_srvinfoFromM1srvurl.mp h
  obtain ⟨hparse, hmem⟩ := getServiceFromUrl_eq_some hget
  rw [getContainerAllServices_eq ct.type_ne, getElem?_map] at hu
  obtain ⟨r, hr, rfl⟩ := map_eq_some_iff.mp hu
  exact ⟨r, mem_of_getElem? hr, s0, hmem, hparse, hkey.symm⟩

end

/-- **結ばれた service が選び直されないのは、型の条件に合う結ばれた service がどれも、ある行の host の全体であるとき。** -/
theorem linked_iff (t : ServiceTable) (cid : Bytes) (ct : CompoundType)
    (fnmatch : Option Bytes → Bytes → Bool) (pool : Lb) :
    NeverRelinks t cid ct fnmatch pool ↔
      ∀ s ∈ pool.services, filterTag fnmatch ct s = true → Linked t cid ct.type s.addr →
        LinkedAlone t cid ct.type pool.services s.addr := by
  constructor
  · intro h s hs hfilter hlinked
    by_contra halone
    let ext := pollRequest pool.services (fun _ => true) fnmatch 1 ct
      (getContainerAllServices t cid ct.type)
    have hadm : Admissible pool.services ext [s] := by
      refine ⟨by simpa using hs, ?_, by simp, by simp, rfl⟩
      simp only [mem_singleton, forall_eq]
      refine extOptFilter_iff.mpr ⟨fun s₀ hs₀ hkey => halone (linkedAlone_of_forbidden hs₀ hkey),
        by simp [ext, pollRequest], by simp [ext, pollRequest], hfilter⟩
    obtain ⟨draws, l, hl, hperm⟩ := nextSet2_reaches pool rfl rfl rfl Nat.one_pos hadm
    let env : Env := ⟨draws, fun _ => true, fun _ _ => true, fnmatch, none, none, none, none, .done⟩
    exact h env pool.full .rand _ 1 l rfl rfl hl s (hperm.mem_iff.mpr (by simp)) hlinked
  · rintro h env lb it it' replicas l rfl hservices hpoll s hs hlinked
    have hadm := Admissible.of_nextSet2 rfl hpoll
    obtain ⟨hallowed, -, -, hfilter⟩ := extOptFilter_iff.mp (hadm.accepted s hs)
    have hmem := hadm.mem s hs
    rw [hservices] at hmem
    obtain ⟨s₀, hs₀, hkey⟩ := forbidden_of_linkedAlone env.errnoUsed (h s hmem hfilter hlinked)
    rw [← hservices] at hs₀
    exact hallowed s₀ hs₀ hkey

/-! ## 反例 -/

def pairTable : ServiceTable :=
  ⟨[⟨[1], ascii "meta2", 1, ascii "127.0.0.1:6001,127.0.0.1:6002", []⟩], pairwise_singleton _ _⟩

def localService (port : Nat) : ServiceInfo :=
  ⟨ascii "NS", ascii "meta2", ⟨.v4, [127, 0, 0, 1], port, 0⟩, 50, []⟩

def pairPool : Lb where
  services := [localService 6001, localService 6002]
  sizeMax := 2
  version := 1
  resetDelay := 0
  scored := by decide
  length_lt := by decide
  sizeMax_le := by decide
  sizeMax_pos := by decide

def meta2Type : CompoundType :=
  ⟨ascii "meta2", ascii "meta2", [], ascii "meta2", none, none, by decide⟩

def quietEnv : Env :=
  ⟨fun _ => ⟨0, 0, 0, 0⟩, fun _ => false, fun _ _ => false, fun _ _ => true,
    none, none, none, none, .done⟩

/-- **反例。** 2 つ結ばれていると、1 つがもう一度選ばれる。 -/
theorem pair_relinked : pollAnswer quietEnv pairPool (.rr 0 0) 1 meta2Type
        (getContainerAllServices pairTable [1] meta2Type.type) =
      some (some [localService 6002], .shared (.rr 1 0)) ∧
    Linked pairTable [1] meta2Type.type (localService 6002).addr := by
  refine ⟨by decide +kernel, ?_⟩
  refine ⟨_, mem_cons_self, ascii "127.0.0.1:6002", by decide +kernel, Or.inl ?_⟩
  decide +kernel

end Redcurrant.Meta1
