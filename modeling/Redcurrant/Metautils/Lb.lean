import Redcurrant.Infra.Ordered
import Redcurrant.Metautils.Service

/-!
# service の pool と iterator

`metautils/lib/lb.c`。service の pool、1 つずつ取り出す iterator、条件に合う組の選び方。
-/

namespace Redcurrant.Metautils

open Infra

/-! ## pool -/

structure ScoreSlot where
  (index score sum : Nat)
  deriving DecidableEq

/-- `struct grid_lb_s` -/
structure Lb where
  services : List ServiceInfo
  (sizeMax version : Nat)
  resetDelay : Int
  scored : ∀ s ∈ services, 0 < s.score
  length_lt : services.length < 2 ^ 32
  sizeMax_le : sizeMax ≤ services.length
  sizeMax_pos : services ≠ [] → 0 < sizeMax

/-- `_lb_relink_services` の slot の列。後ろから積み、score の大きい順に安定に並べる。 -/
def relinkServices (services : List ServiceInfo) : List (Nat × Nat) :=
  orderBy (fun slot => -(slot.2 : Int))
    (services.zipIdx.map fun s => (s.2, s.1.score.toNat)).reverse

/-- `_lb_cumulate_scores_sum`。和は後ろから積む。 -/
def cumulateScoresSum : List (Nat × Nat) → List ScoreSlot
  | [] => []
  | (index, score) :: l =>
    let rest := cumulateScoresSum l
    ⟨index, score, (score + (rest.head?.map (·.sum)).getD 0) % 2 ^ 32⟩ :: rest

namespace Lb

variable (lb : Lb)

def sortedByScore : List ScoreSlot := cumulateScoresSum (relinkServices lb.services)

def sumScored : Nat := (lb.sortedByScore.head?.map (·.sum)).getD 0

def getRaw (idx : Nat) : Option ServiceInfo := lb.services[idx % lb.services.length]?

def getSlot (idx : Nat) : Option ServiceInfo :=
  lb.sortedByScore[idx]?.bind fun slot => lb.getRaw slot.index

def getByScore (idx : Nat) : Option ServiceInfo :=
  if lb.sizeMax = 0 then none else lb.getSlot (idx % lb.sizeMax)

def getByScoreNoShorten (idx : Nat) : Option ServiceInfo := lb.getSlot (idx % lb.services.length)

end Lb

/-! ## iterator -/

/-- `struct grid_lb_iterator_s`。共有の iterator は別の iterator を動かす。 -/
inductive LbIterator
  | single (version nextIdx : Nat)
  | rr (nextIdx nextIdxGlobal : Nat)
  | wrr (nextIdx nextIdxGlobal current : Nat) (lastReset : Int)
  | rand
  | wrand
  | shared (sub : LbIterator)
  deriving DecidableEq

/-- 外から受け取るもの。`rand()`、2 度までの `time(NULL)`、割り当てた領域の番地が木の中で占める場所。 -/
structure Draw where
  rand : Nat
  (now resetTime : Int)
  place : Nat
  deriving DecidableEq

def guintSucc (n : Nat) : Nat := (n + 1) % 2 ^ 32

namespace Lb

variable (lb : Lb)

/-- `__next_SINGLE`。reload された pool では何も返さない。 -/
def nextSingle (version nextIdx : Nat) : Option ServiceInfo × LbIterator :=
  if version = lb.version ∧ nextIdx < lb.services.length then
    (lb.getRaw nextIdx, .single version (guintSucc nextIdx))
  else (none, .single version nextIdx)

/-- `__next_RR` が shorten しないときに読む service -/
def nextGlobal (nextIdxGlobal : Nat) : Option ServiceInfo × Nat :=
  if 0 < lb.sizeMax then (lb.getByScoreNoShorten nextIdxGlobal, guintSucc nextIdxGlobal)
  else (none, nextIdxGlobal)

/-- `__next_SRR` の `reset` -/
def srrReset (d : Draw) : Nat × Nat × Int :=
  (0, (lb.sortedByScore.head?.map (·.score)).getD 0, d.resetTime)

/-- `__next_SRR` の `decrement` -/
def srrDecrement (d : Draw) (current : Nat) (lastReset : Int) : Nat × Nat × Int :=
  if current - 1 = 0 then lb.srrReset d else (0, current - 1, lastReset)

/-- `__next_SRR` の、読む前の動き -/
def srrRotate (d : Draw) (nextIdx current : Nat) (lastReset : Int) : Nat × Nat × Int :=
  if current = 0 ∨ (0 < lb.resetDelay ∧ toInt32 (lastReset + lb.resetDelay) < d.now) then
    lb.srrReset d
  else
    match lb.sortedByScore[nextIdx]? with
    | none => lb.srrDecrement d current lastReset
    | some slot =>
      if slot.score < current then lb.srrDecrement d current lastReset
      else (nextIdx, current, lastReset)

def nextSrr (d : Draw) (nextIdx nextIdxGlobal current : Nat) (lastReset : Int) :
    Option ServiceInfo × LbIterator :=
  if lb.services.isEmpty then (none, .wrr nextIdx nextIdxGlobal current lastReset)
  else
    let (idx, current, lastReset) := lb.srrRotate d nextIdx current lastReset
    (lb.getByScore idx, .wrr (guintSucc idx) nextIdxGlobal current lastReset)

/-- slot の和。列の後ろには 0 の slot がある。 -/
def sumAt (i : Nat) : Nat := (lb.sortedByScore[i]?.map (·.sum)).getD 0

def dichotomicSearch (needle start stop : Nat) : Nat :=
  let middle := (start + stop) / 2
  if stop - start ≤ 1 then
    if max (lb.sumAt middle) (lb.sumAt start) - min (lb.sumAt middle) (lb.sumAt start) <
        max (lb.sumAt middle) (lb.sumAt stop) - min (lb.sumAt middle) (lb.sumAt stop)
    then start else stop
  else if needle ≤ lb.sumAt middle then dichotomicSearch needle middle stop
  else dichotomicSearch needle start middle
termination_by stop - start

def nextSrand (d : Draw) : Option ServiceInfo :=
  if lb.services.isEmpty ∨ lb.sumScored = 0 then none
  else lb.getByScore
    (lb.dichotomicSearch (d.rand % 2 ^ 32 % lb.sumScored) 0 lb.sortedByScore.length)

/-- `_iterator_next_shorten` -/
def next (d : Draw) (shorten : Bool) : LbIterator → Option ServiceInfo × LbIterator
  | .single version nextIdx => lb.nextSingle version nextIdx
  | .rr nextIdx nextIdxGlobal =>
    if shorten then (lb.getByScore nextIdx, .rr (guintSucc nextIdx) nextIdxGlobal)
    else ((lb.nextGlobal nextIdxGlobal).1, .rr nextIdx (lb.nextGlobal nextIdxGlobal).2)
  | .wrr nextIdx nextIdxGlobal current lastReset =>
    if shorten then lb.nextSrr d nextIdx nextIdxGlobal current lastReset
    else ((lb.nextGlobal nextIdxGlobal).1,
      .wrr nextIdx (lb.nextGlobal nextIdxGlobal).2 current lastReset)
  | .rand => (lb.getByScore (d.rand % 2 ^ 32), .rand)
  | .wrand => (lb.nextSrand d, .wrand)
  | .shared sub => ((next d shorten sub).1, .shared (next d shorten sub).2)

/-- `_get_iteration_limit` -/
def iterationLimit (shorten : Bool) : LbIterator → Nat
  | .single _ _ | .rr _ _ => if shorten then lb.sizeMax else lb.services.length
  | .wrr _ _ _ _ | .rand | .wrand => lb.services.length
  | .shared sub => iterationLimit shorten sub

end Lb

/-! ## 求める組 -/

/-- `struct lb_next_opt_simple_s` -/
structure LbRequest where
  (max distance : Nat)
  (duplicates shuffle : Bool)
  stgclass : Option StorageClass
  strictStgclass : Bool

/-- `struct lb_next_opt_s` -/
structure LbOpt where
  req : LbRequest
  filter : Option (ServiceInfo → Bool)

def filterMatches (filter : Option (ServiceInfo → Bool)) (si : ServiceInfo) : Bool :=
  filter.all fun hook => hook si

/-- `_distance_fits` の木の走査。近すぎる service に会えば止まる。 -/
def distanceFitsFrom (reqdist : Nat) (loc : Bytes) : List ServiceInfo → Option Bool
  | [] => some true
  | v :: l =>
    match distanceBetweenLocation (some loc) v.location with
    | none => none
    | some d => if d < reqdist then some false else distanceFitsFrom reqdist loc l

/-- `_distance_fits`。location の無い service はどこにでも置ける。 -/
def distanceFits (reqdist : Nat) (polled : List ServiceInfo) (si : ServiceInfo) : Option Bool :=
  if reqdist = 0 then some true
  else
    match si.location with
    | none => some true
    | some loc => distanceFitsFrom reqdist loc polled

/-- `htons`。port は network の並びのまま比べられる。 -/
def htons (port : Nat) : Nat := port % 256 * 256 + port / 256

/-- `addr_info_compare` で、`a` が `b` より前にあること。型と port は大きい順。 -/
def addrBefore (a b : AddrInfo) : Bool :=
  if a.type ≠ b.type then b.type == .v4
  else if a.port ≠ b.port then htons b.port < htons a.port
  else compare a.addr b.addr == .lt

namespace LbOpt

variable (opt : LbOpt)

/-- 求めた storage class と代わりの class。NULL の代わりは飛ばされる。 -/
def classes : List (Option Bytes) :=
  opt.req.stgclass.bind (·.name) ::
    ((if opt.req.strictStgclass then [] else (opt.req.stgclass.map (·.fallbacks)).getD []).filter
      (·.isSome))

/-- 1 つの service を受け入れるか -/
def admits (stgclass : Option Bytes) (polled : List ServiceInfo) (si : ServiceInfo) : Option Bool :=
  if si.checkStorageClass stgclass && filterMatches opt.filter si then
    distanceFits opt.req.distance polled si
  else some false

/-- 同じ番地の service が木にあるか。重複を許す木の鍵はどれとも等しくない。 -/
def present (polled : List ServiceInfo) (si : ServiceInfo) : Bool :=
  !opt.req.duplicates && polled.any fun v => addrInfoEqual v.addr si.addr

/-- `g_tree_replace` で木に入れる -/
def insert (d : Draw) (polled : List ServiceInfo) (si : ServiceInfo) : List ServiceInfo :=
  let i := if opt.req.duplicates then d.place
    else (polled.takeWhile fun v => addrBefore v.addr si.addr).length
  polled.take i ++ si :: polled.drop i

end LbOpt

/-- `service_info_swap`。同じ番地の service を新しい方に替える。 -/
def swapInto (polled : List ServiceInfo) (si : ServiceInfo) : List ServiceInfo :=
  polled.map fun v => if addrInfoEqual v.addr si.addr then si else v

/-- 探索の途中。`calls` は iterator を動かした回数。 -/
structure SearchState where
  it : LbIterator
  calls : Nat
  polled : List ServiceInfo

theorem LbOpt.length_insert (opt : LbOpt) (d : Draw) (polled : List ServiceInfo)
    (si : ServiceInfo) : (opt.insert d polled si).length = polled.length + 1 := by
  simp only [LbOpt.insert, List.length_append, List.length_cons, List.length_take, List.length_drop]
  omega

theorem length_swapInto (polled : List ServiceInfo) (si : ServiceInfo) :
    (swapInto polled si).length = polled.length :=
  List.length_map _

variable (lb : Lb) (draws : Nat → Draw) (opt : LbOpt)

/-- `_search_servers` の loop。断るたびに残りの回数が減る。 -/
def searchLoop (stgclass : Option Bytes) (shorten : Bool) (limit : Nat) (s : SearchState) :
    Option SearchState :=
  if 0 < limit ∧ s.polled.length < opt.req.max then
    match lb.next (draws s.calls) shorten s.it with
    | (none, it) => some { s with it := it, calls := s.calls + 1 }
    | (some si, it) =>
      match opt.admits stgclass s.polled si with
      | none => none
      | some false => searchLoop stgclass shorten (limit - 1) ⟨it, s.calls + 1, s.polled⟩
      | some true =>
        if opt.present s.polled si then
          searchLoop stgclass shorten (limit - 1) ⟨it, s.calls + 1, swapInto s.polled si⟩
        else
          searchLoop stgclass shorten limit
            ⟨it, s.calls + 1, opt.insert (draws s.calls) s.polled si⟩
  else some s
termination_by limit + (opt.req.max - s.polled.length)
decreasing_by
  · omega
  · simp only [length_swapInto]
    omega
  · simp only [LbOpt.length_insert]
    omega

def searchServers (stgclass : Option Bytes) (shorten : Bool) (s : SearchState) :
    Option SearchState :=
  searchLoop lb draws opt stgclass shorten (lb.iterationLimit shorten s.it) s

/-- 足りないときに shorten せずに探し直す -/
def searchMore (s : SearchState) (stgclass : Option Bytes) : Option SearchState :=
  if s.polled.length < opt.req.max then searchServers lb draws opt stgclass false s else some s

/-- `_next_set`。求めた class で shorten して探し、足りなければ、求めた class と代わりの class で探し直す。 -/
def nextSetFrom (s : SearchState) : Option SearchState :=
  (searchServers lb draws opt (opt.req.stgclass.bind (·.name)) true s).bind fun s =>
    opt.classes.foldlM (searchMore lb draws opt) s

/-- `g_ptr_array_remove_index_fast` で取り出し、末尾に足す -/
def shuffleStep (l : List ServiceInfo) (i : Nat) : List ServiceInfo :=
  match l[i]? with
  | none => l
  | some x => (l.set i (l.getLast?.getD x)).dropLast ++ [x]

def shuffle (start : Nat) (l : List ServiceInfo) : List ServiceInfo :=
  (List.range (l.length - 1)).foldl
    (fun l i => shuffleStep l ((draws (start + i)).rand % (l.length - 1))) l

/-- `grid_lb_iterator_next_set`。外側の `none` は落ちること、内側は失敗。 -/
def nextSet (it : LbIterator) : Option (Option (List ServiceInfo) × LbIterator) :=
  if opt.req.max = 0 ∨ (opt.req.duplicates = false ∧ lb.services.length < opt.req.max) then
    some (none, it)
  else
    (nextSetFrom lb draws opt ⟨it, 0, []⟩).map fun s =>
      if s.polled.length < opt.req.max then (none, s.it)
      else (some (if opt.req.shuffle then shuffle draws s.calls s.polled else s.polled), s.it)

/-- `struct lb_next_opt_ext_s` -/
structure LbOptExt where
  req : LbRequest
  (srvInplace srvForbidden : List ServiceInfo)
  filter : Option (ServiceInfo → Bool)

def extOptFilter (ext : LbOptExt) (si : ServiceInfo) : Bool :=
  !(ext.srvForbidden.any fun s₀ => addrInfoEqual si.addr s₀.addr) &&
  !(!ext.req.duplicates && ext.srvInplace.any fun s₀ => addrInfoEqual si.addr s₀.addr) &&
  !(ext.srvInplace.any fun s₀ => decide (distanceBetweenServices si s₀ < ext.req.distance)) &&
  filterMatches ext.filter si

/-- `grid_lb_iterator_next_set2` -/
def nextSet2 (ext : LbOptExt) (it : LbIterator) : Option (Option (List ServiceInfo) × LbIterator) :=
  nextSet lb draws ⟨ext.req, some (extOptFilter ext)⟩ it

end Redcurrant.Metautils
