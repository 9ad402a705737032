import Redcurrant.Infra.RowTable
import Redcurrant.Metautils.Addr
import Redcurrant.Metautils.Lb
import Redcurrant.Sqliterepo.Version

/-!
# meta1 の service の割り当て

`meta1v2/meta1_backend_services.c`。reference と型に、番号ごとの host（`,` で区切った番地の列）を結ぶ。
-/

namespace Redcurrant.Meta1

open Infra Metautils Sqliterepo

/-! ## services 表 -/

structure ServiceRow where
  (cid srvtype : Bytes)
  seq : Int
  (url args : Bytes)
  deriving DecidableEq

/-- `PRIMARY KEY (cid,srvtype,seq)` -/
def ServiceRow.key (r : ServiceRow) : Option (Bytes × Bytes × Int) := some (r.cid, r.srvtype, r.seq)

abbrev ServiceTable := RowTable ServiceRow.key

/-- `struct meta1_service_url_s` -/
structure ServiceUrl where
  seq : Int
  (srvtype host args : Bytes)
  deriving DecidableEq

/-- `g_strlcpy` -/
def strlcpy (s : Bytes) (size : Nat) : Bytes := s.take (size - 1)

def ServiceRow.isOf (cid srvtype : Bytes) (r : ServiceRow) : Bool :=
  r.cid == cid && r.srvtype == srvtype

def ServiceRow.read (r : ServiceRow) : ServiceUrl :=
  ⟨toInt32 r.seq, strlcpy r.srvtype 32, strlcpy r.url 255, r.args⟩

variable (t : ServiceTable)

def getContainerAllServices (cid srvtype : Bytes) : List ServiceUrl :=
  if srvtype.isEmpty then (t.rows.filter fun r => r.cid == cid).map ServiceRow.read
  else (t.rows.filter (ServiceRow.isOf cid srvtype)).map ServiceRow.read

def saveService (cid : Bytes) (u : ServiceUrl) : ServiceTable :=
  t.replaceInto ⟨cid, u.srvtype, toInt32 u.seq, u.host, u.args⟩

def deleteService (cid srvtype : Bytes) : ServiceTable := t.delete (ServiceRow.isOf cid srvtype)

/-! ## host -/

/-- `g_strsplit(host, ",", -1)`。空の文字列は 0 個に分かれる。 -/
def splitHost (host : Bytes) : List Bytes := if host.isEmpty then [] else host.splitOn 44

def expandUrl (u : ServiceUrl) : List ServiceUrl :=
  (splitHost u.host).map fun host => { u with host := strlcpy host 256 }

def expandUrlv (uv : List ServiceUrl) : List ServiceUrl := uv.flatMap expandUrl

/-- `meta1_pack_url` -/
def packUrl (u : ServiceUrl) : Bytes :=
  decInt u.seq ++ 124 :: u.srvtype ++ 124 :: u.host ++ 124 :: u.args

def urlvGetMaxSeq (uv : List ServiceUrl) : Int :=
  uv.foldl (fun seq u => if seq < u.seq then toInt32 u.seq else seq) (-2147483648)

/-- 番地を `,` で区切って並べる。1 つずつ、38 byte の場所に書く。 -/
def compoundUrl (addrs : List AddrInfo) : Bytes :=
  [44].intercalate (addrs.map fun a => gridAddrinfoToString a 38)

/-! ## 型 -/

/-- `struct compound_type_s`。型の名は空でない。 -/
structure CompoundType where
  (fulltype baretype subtype type : Bytes)
  (reqKey reqValue : Option Bytes)
  type_ne : type ≠ []
  deriving DecidableEq

/-- 最初の区切りで 2 つに分ける（`g_strsplit(s, c, 2)`） -/
def splitPair (c : UInt8) (s : Bytes) : Bytes × Option Bytes :=
  match splitAtChar c s with
  | some (a, b) => (a, some b)
  | none => (s, none)

theorem splitPair_ne_nil {c : UInt8} {s : Bytes} (hs : s ≠ []) (hc : s.head? ≠ some c) :
    (splitPair c s).1 ≠ [] := by
  obtain ⟨b, t, rfl⟩ := List.exists_cons_of_ne_nil hs
  have hb : b ≠ c := fun he => hc (he ▸ rfl)
  unfold splitPair splitAtChar
  split
  · rename_i a rest h
    split at h
    · rw [Option.some.injEq, Prod.mk.injEq] at h
      rw [← h.1, List.takeWhile_cons, if_pos (by simpa using hb)]
      simp
    · cases h
  · simp

def compoundTypeParse (srvtype : Bytes) : Except GError CompoundType :=
  if h : srvtype = [] ∨ srvtype.head? = some 46 ∨ srvtype.head? = some 59 then
    .error ⟨400, "Bad service type [" ++ text srvtype ++ "]"⟩
  else
    let type := (splitPair 59 srvtype).1
    let args := (splitPair 59 srvtype).2.filter fun s => !s.isEmpty
    .ok
      { fulltype := srvtype
        baretype := (splitPair 46 type).1
        subtype := (splitPair 46 type).2.getD []
        type := type
        reqKey := args.map fun s => (splitPair 61 s).1
        reqValue := args.bind fun s => (splitPair 61 s).2
        type_ne := splitPair_ne_nil (fun he => h (.inl he)) fun he => h (.inr (.inr he)) }

/-- `enum service_update_policy_e` -/
inductive UpdatePolicy
  | notSpecified
  | none
  | append
  | replace
  deriving DecidableEq

/-- 型ごとの policy（`struct element_s`） -/
structure PolicyElement where
  (tagname tagvalue : Option Bytes)
  (replicas reqdist : Nat)
  howtoUpdate : UpdatePolicy
  deriving DecidableEq

/-- `struct service_update_policies_s` -/
abbrev Policies := List (Bytes × PolicyElement)

/-- 型の、最初の `.` までで引く -/
def Policies.find (pol : Policies) (type : Bytes) : Option PolicyElement :=
  pol.lookup (splitPair 46 type).1

/-- `service_howto_update` -/
def Policies.howtoUpdate (pol : Policies) (type : Bytes) : UpdatePolicy :=
  ((pol.find type).map (·.howtoUpdate)).getD .notSpecified

/-- `service_howmany_replicas` -/
def Policies.howmanyReplicas (pol : Policies) (type : Bytes) : Nat :=
  ((pol.find type).map (·.replicas)).getD 0

/-- `service_howmany_distance` -/
def Policies.howmanyDistance (pol : Policies) (type : Bytes) : Nat :=
  ((pol.find type).map (·.reqdist)).getD 0

def CompoundType.updateArg (ct : CompoundType) (pol : Policies) (override : Bool) : CompoundType :=
  match pol.find ct.baretype with
  | some el =>
    if el.tagname.isSome && (override || ct.reqKey.isNone) then
      { ct with reqKey := el.tagname, reqValue := el.tagvalue }
    else ct
  | Option.none => ct

/-! ## pool -/

/-- `struct meta1_backend_s` のうち、割り当てが読む部分 -/
structure Meta1Backend where
  nsName : Bytes
  nsPolicies : List (Bytes × Policies)
  lbpool : List (Bytes × Lb × LbIterator)

variable (m1 : Meta1Backend)

def Meta1Backend.policies (ns : Bytes) : Option Policies :=
  (m1.nsPolicies.lookup ns).or (m1.nsPolicies.lookup m1.nsName)

def Meta1Backend.getIterator (baretype : Bytes) : Except GError (Lb × LbIterator) :=
  match m1.lbpool.lookup baretype with
  | some p => .ok p
  | none => .error ⟨460, "type [" ++ text baretype ++ "] not managed"⟩

/-- 共有した iterator を動かした後の pool -/
def Meta1Backend.setIterator (baretype : Bytes) (it : LbIterator) : Meta1Backend :=
  { m1 with lbpool := m1.lbpool.map fun p => if p.1 = baretype then (p.1, p.2.1, it) else p }

/-- `_get_service_from_addr`。番地の全体で引き、同じ番地なら先のもの。 -/
def getServiceFromAddr (services : List ServiceInfo) (ai : AddrInfo) : Option ServiceInfo :=
  services.find? fun s => s.addr = ai

/-- `grid_lb_get_service_from_url` -/
def getServiceFromUrl (services : List ServiceInfo) (einval : Bool) (url : Bytes) :
    Option ServiceInfo :=
  (gridStringToAddrinfo einval url).bind (getServiceFromAddr services)

/-- COMMIT の結果。hook が拒めば ROLLBACK され（`refused`）、他の失敗では transaction が開いたまま残る（`failed`）。 -/
inductive CommitResult
  | done
  | refused (e : GError)
  | failed (e : GError)
  deriving DecidableEq

/-- 外から決まるもの。乱数と時計（`draws`）、番地を読むときの `errno`、`fnmatch`、SQLite の error。 -/
structure Env where
  draws : Nat → Draw
  errnoUsed : Nat → Bool
  errnoUp : Nat → Nat → Bool
  fnmatch : Option Bytes → Bytes → Bool
  (lookupError beginError deleteError saveError : Option GError)
  commit : CommitResult

def filterTag (fnmatch : Option Bytes → Bytes → Bool) (ct : CompoundType) (si : ServiceInfo) :
    Bool :=
  match ct.reqKey with
  | none => true
  | some k =>
    match getTag si.tags k with
    | some ⟨_, .text s⟩ => fnmatch ct.reqValue s
    | _ => false

/-- `__srvinfo_from_m1srvurl`。host の全体を 1 つの番地として読む。 -/
def srvinfoFromM1srvurl (services : List ServiceInfo) (errno : Nat → Bool)
    (urls : List ServiceUrl) : List ServiceInfo :=
  (urls.zipIdx.filterMap fun u => getServiceFromUrl services (errno u.2) u.1.host).reverse

def pollRequest (services : List ServiceInfo) (errno : Nat → Bool)
    (fnmatch : Option Bytes → Bytes → Bool) (replicas : Nat) (ct : CompoundType)
    (used : List ServiceUrl) : LbOptExt where
  req :=
    { max := replicas
      distance := if 1 < replicas then 1 else 0
      duplicates := false
      shuffle := false
      stgclass := none
      strictStgclass := true }
  srvInplace := []
  srvForbidden := srvinfoFromM1srvurl services errno used
  filter := some (filterTag fnmatch ct)

variable (env : Env)

/-- `__poll_services` が pool から受け取る service -/
def pollAnswer (lb : Lb) (it : LbIterator) (replicas : Nat) (ct : CompoundType)
    (used : List ServiceUrl) : Option (Option (List ServiceInfo) × LbIterator) :=
  nextSet2 lb env.draws
    (pollRequest lb.services env.errnoUsed env.fnmatch replicas ct used) (.shared it)

def pollUrl (ct : CompoundType) (seq : Int) (siv : List ServiceInfo) : ServiceUrl :=
  ⟨seq, strlcpy ct.type 32, strlcpy (compoundUrl (siv.map (·.addr))) 256, []⟩

def unshare : LbIterator → LbIterator
  | .shared it => it
  | it => it

def toGuint (z : Int) : Int := z % 4294967296

/-- 新しい番号。負の数は行が無いか番号が負。 -/
def nextSeq (used : List ServiceUrl) : Int :=
  toGuint (if urlvGetMaxSeq used < 0 then 1 else toInt32 (urlvGetMaxSeq used + 1))

/-! ## 割り当て -/

/-- transaction の中で行を書く。書けなければ ROLLBACK されるが、失敗した COMMIT は transaction を開いたままにし、同じ接続では
行が読める。 -/
def saveLink (t : ServiceTable) (cid : Bytes) (ct : CompoundType) (policy : UpdatePolicy)
    (u : ServiceUrl) : Option GError × ServiceTable :=
  match env.beginError with
  | some e => (some e, t)
  | none =>
    let replace := policy = .replace
    match (if replace then env.deleteError else none).or env.saveError with
    | some e => (some e, t)
    | none =>
      let t' := saveService (if replace then deleteService t cid ct.type else t) cid u
      match env.commit with
      | .done => (none, t')
      | .refused e => (some e, t)
      | .failed e => (some e, t')

/-- `__get_container_service2` の、新しい service を選ぶ部分。成功すれば作った行を返す。 -/
def linkNew (lb : Lb) (it : LbIterator) (t : ServiceTable) (cid : Bytes) (ct : CompoundType)
    (policy : UpdatePolicy) (replicas : Nat) (dryrun : Bool) :
    Option (Except GError ServiceUrl × ServiceTable × LbIterator) :=
  let used := getContainerAllServices t cid ct.type
  (pollAnswer env lb it replicas ct used).map fun r =>
    match r.1 with
    | none => (.error ⟨481, "No service available"⟩, t, unshare r.2)
    | some siv =>
      let u := pollUrl ct (nextSeq used) siv
      if dryrun then (.ok u, t, unshare r.2)
      else
        match saveLink env t cid ct policy u with
        | (some e, t) => (.error e, t, unshare r.2)
        | (none, t) => (.ok u, t, unshare r.2)

/-- `__get_services_up`。行の service のどれか 1 つが pool にあれば、その行はすべて返される。 -/
def getServicesUp (m1 : Meta1Backend) (src : List ServiceUrl) : List ServiceUrl :=
  match src with
  | [] => []
  | u :: _ =>
    match (compoundTypeParse u.srvtype).bind fun ct => m1.getIterator ct.baretype with
    | .error _ => []
    | .ok (lb, _) =>
      (src.zipIdx.filter fun u => (expandUrl u.1).zipIdx.any fun p =>
        (getServiceFromUrl lb.services (env.errnoUp u.2 p.2) p.1.host).isSome).flatMap
          fun u => expandUrl u.1

/-- `__get_container_service2`。落ちれば `none`、そうでなければ答え、表、pool。 -/
def getContainerService2 (m1 : Meta1Backend) (t : ServiceTable) (ns cid : Bytes)
    (ct : CompoundType) (reuse dryrun : Bool) :
    Option (Except GError (List Bytes) × ServiceTable × Meta1Backend) :=
  match m1.policies ns with
  | none => some (.error ⟨481, "Bad NS/Policy pair"⟩, t, m1)
  | some pol =>
    let policy := pol.howtoUpdate ct.baretype
    let replicas := max (pol.howmanyReplicas ct.baretype) 1
    let ct := ct.updateArg pol false
    match env.lookupError with
    | some e => some (.error (prefixError "Preliminary lookup error : " e), t, m1)
    | none =>
      let used := getContainerAllServices t cid ct.type
      if reuse && !(getServicesUp env m1 used).isEmpty then
        some (.ok ((getServicesUp env m1 used).map packUrl), t, m1)
      else if reuse && !used.isEmpty && (policy == .none || policy == .notSpecified) then
        some (.ok (used.map packUrl), t, m1)
      else
        match m1.getIterator ct.baretype with
        | .error e => some (.error e, t, m1)
        | .ok (lb, it) =>
          (linkNew env lb it t cid ct policy replicas dryrun).map fun r =>
            (r.1.map fun u => (expandUrl u).map packUrl, r.2.1, m1.setIterator ct.baretype r.2.2)

def getContainerService (m1 : Meta1Backend) (t : ServiceTable) (ns cid srvtype : Bytes)
    (reuse dryrun : Bool) : Option (Except GError (List Bytes) × ServiceTable × Meta1Backend) :=
  match compoundTypeParse srvtype with
  | .error e => some (.error e, t, m1)
  | .ok ct => getContainerService2 env m1 t ns cid ct reuse dryrun

end Redcurrant.Meta1
