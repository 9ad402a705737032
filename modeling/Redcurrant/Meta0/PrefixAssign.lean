import Redcurrant.Infra.Counted
import Redcurrant.Metautils.Addr
import Redcurrant.Sqliterepo.Version

/-!
# meta0 の prefix の割り当て

`meta0v2/meta0_prefixassign.c` と `meta0_utils.c`。65536 個の prefix のそれぞれに META1 の URL が `replica` 個ある。
-/

namespace Redcurrant.Meta0

open Infra Metautils Sqliterepo List

/-! ## URL の表 -/

/-- `array_meta1_by_prefix`。NULL は空の列。 -/
abbrev PrefixArray := Nat → List Bytes

def prefixCount : Nat := 65536

variable (a : PrefixArray) (errno : Bytes → Bool) (refs : List (Bytes × Bool))

/-- `meta0_utils_array_add` -/
def arrayAdd (p : Nat) (s : Bytes) : PrefixArray := setAt a p (a p ++ [s])

/-- `g_ascii_strncasecmp(url, s, strlen(s)) == 0` -/
def startsCase (s url : Bytes) : Bool := (s.map toLower).isPrefixOf (url.map toLower)

structure Meta0Info where
  addr : AddrInfo
  prefixes : List Nat
  deriving DecidableEq

/-- 表の prefix と URL の組 -/
def arrayPairs : List (Nat × Bytes) :=
  (range prefixCount).flatMap fun p => (a p).map fun u => (p, u)

/-- 0 で埋めた番地。読めなかった URL の番地。 -/
def zeroAddr : AddrInfo := ⟨.v4, [0, 0, 0, 0], 0, 0⟩

/-- URL ごとに prefix を集める（`meta0_utils_array_to_tree`、`meta0_utils_tree_to_list`）。list は木の逆順。 -/
def pairsToList (pairs : List (Nat × Bytes)) : List Meta0Info :=
  let urls := (pairs.map (·.2)).eraseDups.mergeSort fun a b =>
    ((Hashstr.create a).quickCmp (Hashstr.create b)).isLE
  urls.reverse.map fun u =>
    ⟨(gridStringToAddrinfo (errno u) u).getD zeroAddr,
      pairs.filterMap fun q => if q.2 = u then some q.1 else none⟩

/-- `meta0_utils_array_to_list` -/
def arrayToList (a : PrefixArray) : List Meta0Info := pairsToList errno (arrayPairs a)

/-! ## META1 の記録 -/

/-- `struct meta0_assign_meta1_s`。`freed` は番地と prefix の列が free されたこと。 -/
structure AssignMeta1 where
  addr : Bytes
  score : Nat
  (available used : Bool)
  assignPrefixes : Option (List Nat)
  freed : Bool
  deriving DecidableEq

/-- `struct meta0_assign_context_s` と、候補の list（`working_m1list`） -/
structure AssignState where
  array : PrefixArray
  meta1 : Nat → AssignMeta1
  count : Nat
  working : List Nat
  avgscore : Nat

variable (l : List AssignMeta1) (array : PrefixArray) (σ : AssignState)

/-- 1 つの service の記録を作り、同じ番地の `Meta0Info` の prefix を引き取る -/
def initRecord (infos : List Meta0Info) (s : ServiceInfo) : AssignMeta1 × List Meta0Info :=
  let addr := gridAddrinfoToString s.addr 128
  let used := refs.lookup addr != some false
  match infos.find? fun i => addrInfoEqual i.addr s.addr with
  | none => (⟨addr, 0, false, used, none, false⟩, infos)
  | some i =>
    (⟨addr, i.prefixes.length, false, used, some i.prefixes, false⟩,
      infos.eraseP fun i => addrInfoEqual i.addr s.addr)

/-- service の列の記録を作る。後に同じ番地があれば、先の記録は free される。 -/
def initRecords (refs : List (Bytes × Bool)) :
    List Meta0Info → List ServiceInfo → List AssignMeta1 × List Meta0Info
  | infos, [] => ([], infos)
  | infos, s :: rest =>
    let r := initRecord refs infos s
    let t := initRecords refs r.2 rest
    ({ r.1 with freed := t.1.any (·.addr == r.1.addr) } :: t.1, t.2)

def recordAt (i : Nat) : AssignMeta1 := l.getD i ⟨[], 0, false, false, none, false⟩

/-- 止められていない記録の list。後の service が前に来る。 -/
def workingOf : List Nat := ((range l.length).filter fun i => (recordAt l i).used).reverse

/-- `_init_assign` の終わりの状態。平均より score の高い記録は移す元。 -/
def startState (l : List AssignMeta1) (avgscore : Nat) : AssignState where
  array := array
  meta1 := fun i =>
    { recordAt l i with
      available := (recordAt l i).used && decide (avgscore < (recordAt l i).score) }
  count := l.length
  working := workingOf l
  avgscore := avgscore

/-- `_init_assign`。`replica` は求める数、`refs` は止められているかの印。 -/
def initAssign (services : List ServiceInfo) (replica : Nat) : Except GError AssignState :=
  if services.length < replica then
    .error ⟨22, "Number of meta1 services [" ++ toString services.length ++
      "] less than number of replication [" ++ toString replica ++ "]"⟩
  else if replica = 0 then .error ⟨22, "Invalid replica number [" ++ toString replica ++ "]"⟩
  else
    let r := initRecords refs (arrayToList errno array) services
    let nbM1 := (workingOf r.1).length + r.2.length
    if nbM1 = 0 then .error ⟨0, "No Meta1 service available"⟩
    else .ok (startState array r.1 ((prefixCount * replica % 4294967296) / nbM1))

/-! ## 移す先 -/

/-- `l4_address_split` の host -/
def l4AddressHost (url : Bytes) : Option Bytes :=
  (splitAtLast 58 (url.take 511)).map fun p =>
    if url.head? = some 91 then
      if p.1.length = 1 then 58 :: p.2 else p.1.dropLast.tail
    else p.1

/-- 候補 `d` について prefix の URL を順に調べる。`s` は替えられる META1、`loop` は次の候補へ進むこと。 -/
def scanUrls (s : Option Bytes) (d : Bytes) (force : Bool) : Bool → List Bytes → Option Bool
  | loop, [] => some loop
  | loop, url :: rest =>
    if s.any fun s => startsCase s url then scanUrls s d force loop rest
    else if startsCase d url then some true
    else
      match l4AddressHost url with
      | none => scanUrls s d force loop rest
      | some host =>
        match l4AddressHost d with
        | none => none
        | some dhost =>
          if startsCase dhost host && !((s.bind l4AddressHost).any fun shost => startsCase shost host)
            && !force then some true
          else scanUrls s d force false rest

def rejects (urls : List Bytes) (s : Option Bytes) (d : Bytes) (force : Bool) : Option Bool :=
  if urls.isEmpty then some false else scanUrls s d force true urls

/-- 候補を後ろから順に調べる -/
def selectDestFrom (σ : AssignState) (urls : List Bytes) (s : Option Bytes) (unref force : Bool) :
    List Nat → Option (Option Nat)
  | [] => some none
  | i :: rest =>
    if σ.avgscore ≤ (σ.meta1 i).score ∧ unref = false then some none
    else if (σ.meta1 i).freed then none
    else
      (rejects urls s (σ.meta1 i).addr force).bind fun loop =>
        if loop then selectDestFrom σ urls s unref force rest else some (some i)

def selectDestAssignM1 (s : Option Bytes) (p : Nat) (unref force : Bool) : Option (Option Nat) :=
  if σ.working.isEmpty then none
  else selectDestFrom σ (σ.array p) s unref force σ.working.reverse

/-- score の高い順に並べる（`meta0_assign_sort_by_score`） -/
def sortByScore (meta1 : Nat → AssignMeta1) (l : List Nat) : List Nat :=
  l.mergeSort fun i j => decide ((meta1 j).score ≤ (meta1 i).score)

/-! ## 空の meta0 を埋める -/

def AssignMeta1.increaseScore (m : AssignMeta1) : AssignMeta1 := { m with score := m.score + 1 }

/-- 1 つの prefix に META1 を 1 つ加える -/
def fillStep (nodist : Bool) (σ : AssignState) (idx : Nat) : Option (Except GError AssignState) :=
  let σ := { σ with working := sortByScore σ.meta1 σ.working }
  (selectDestAssignM1 σ none idx true nodist).map fun d =>
    match d with
    | none => .error ⟨0, "Failed to assign prefix " ++ toString idx ++ " to meta1"⟩
    | some j =>
      .ok { σ with
          array := arrayAdd σ.array idx (σ.meta1 j).addr
          meta1 := setAt σ.meta1 j (σ.meta1 j).increaseScore }

def fillLoop (nodist : Bool) : List Nat → AssignState → Option (Except GError AssignState)
  | [], σ => some (.ok σ)
  | idx :: rest, σ =>
    (fillStep nodist σ idx).bind fun r =>
      match r with
      | .error e => some (.error e)
      | .ok σ => fillLoop nodist rest σ

/-- すべての prefix を複製の数だけ繰り返す -/
def fillOrder (replicas : Nat) : List Nat := (replicate replicas (range prefixCount)).flatten

/-- `_updated_meta1ref`。hash に残った記録の番地、印、score を書く。 -/
def updatedMeta1ref : List (Bytes × Bool × Nat) :=
  ((range σ.count).filter fun i => !(σ.meta1 i).freed).map fun i =>
    ((σ.meta1 i).addr, (σ.meta1 i).used, (σ.meta1 i).score)

/-- meta0 の base。`meta1` の行は prefix と番地の組、`meta1_ref` の行は番地、印、数。`meta1_ref` の table が無ければ `none`。 -/
structure Meta0Base where
  meta1 : List (Nat × Bytes)
  meta1Ref : Option (List (Bytes × Bool × Nat))

/-- `_load_from_base` の表 -/
def Meta0Base.urls (b : Meta0Base) : PrefixArray :=
  fun p => b.meta1.filterMap fun q => if q.1 = p then some q.2 else none

/-- `_load_meta1ref_from_base`。table が無ければ空とする。 -/
def Meta0Base.marks (b : Meta0Base) : List (Bytes × Bool) :=
  (b.meta1Ref.getD []).map fun r => (r.1, r.2.1)

/-- `_assign_prefixes`（`init` が真のとき）。同じ組の行があれば失敗する。 -/
def assignPrefixes : List (Nat × Bytes) → List (Nat × Bytes) → Except GError (List (Nat × Bytes))
  | [], rows => .ok rows
  | q :: qs, rows =>
    if rows.contains q then
      .error ⟨19, "(SQLITE_CONSTRAINT) UNIQUE constraint failed: meta1.prefix, meta1.addr"⟩
    else assignPrefixes qs (rows ++ [q])

/-- `REPLACE INTO meta1_ref` の 1 行 -/
def replaceRef (rows : List (Bytes × Bool × Nat)) (r : Bytes × Bool × Nat) :
    List (Bytes × Bool × Nat) := rows.filter (fun q => q.1 ≠ r.1) ++ [r]

/-- `_record_meta1ref`。table が無ければ、何も書かずに成功する。 -/
def recordMeta1ref (refs : List (Bytes × Bool × Nat)) (table : Option (List (Bytes × Bool × Nat))) :
    Option (List (Bytes × Bool × Nat)) := table.map (refs.foldl replaceRef)

/-- `meta0_backend_assign`（`init` が真のとき） -/
def backendAssign (b : Meta0Base) : Except GError Meta0Base :=
  (assignPrefixes (arrayPairs σ.array) b.meta1).map fun rows =>
    ⟨rows, recordMeta1ref (updatedMeta1ref σ) b.meta1Ref⟩

def tooEarly : GError := ⟨0, "delay between two meta1 assign  not respected. Try later."⟩

/-- `meta0_assign_fill`。`early` は前の割り当てから 10 分経っていないこと。 -/
def assignFill (b : Meta0Base) (services : List ServiceInfo) (replicas : Nat) (nodist early : Bool) :
    Option (Except GError Meta0Base) :=
  match initAssign errno b.marks b.urls services replicas with
  | .error e => some (.error e)
  | .ok σ =>
    if early then some (.error tooEarly)
    else (fillLoop nodist (fillOrder replicas) σ).map fun r => r.bind fun σ => backendAssign σ b

end Redcurrant.Meta0
