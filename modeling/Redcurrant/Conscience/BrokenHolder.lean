import Redcurrant.Infra.Loop
import Redcurrant.Infra.Joined
import Redcurrant.Metautils.Addr

/-!
# 壊れた要素の記録

`cluster/conscience/conscience_broken_holder_*.c`。壊れた META1 の表と META2 の表。全体が壊れた META2 は
container と content を記録しない。
-/

namespace Redcurrant.Conscience

open Infra Metautils Function

/-! ## record -/

structure BrokenContent where
  (containerId contentPath cause : Bytes)
  counter : Int
  deriving DecidableEq

/-- `broken_containers` -/
abbrev Containers := Bytes → Option BrokenContent

/-- `struct broken_meta2_s`。全体が壊れたものは container を持たない。 -/
structure BrokenMeta2 where
  counter : Int
  totallyBroken : Bool
  brokenContainers : Containers
  absorbed : totallyBroken = true → ∀ k, brokenContainers k = none

structure BrokenMeta1 where
  counter : Int
  deriving DecidableEq

/-- `addr_info_equal` が比べる番地 -/
abbrev AddrKey := AddrType × Nat × Bytes

structure BrokenHolder where
  meta1 : AddrKey → Option BrokenMeta1
  meta2 : AddrKey → Option BrokenMeta2

/-- 型ごとの期限内の service の数。型が無ければ `none`。 -/
structure Services where
  (rawx meta2 : Option UInt32)

variable (sv : Services)

/-- `gint` の counter に入る rawx の数 -/
def Services.rawxCount : Int := (sv.rawx.map fun n => toInt32 n.toNat).getD 0

/-- `gint64` の counter に入る META2 の数 -/
def Services.meta2Count : Int := (sv.meta2.map fun n => (n.toNat : Int)).getD 0

structure BrokenFields where
  ip : Bytes
  port : Int
  (cid content cause : Option Bytes)

/-- `build_addr_info` の番地 -/
def buildAddrInfo (einval : Bool) (ip : Bytes) (port : Int) : Option AddrKey :=
  if port < 0 then none
  else
    let buf := if 58 ∈ ip then 91 :: ip ++ ascii "]:" ++ decInt port else ip ++ 58 :: decInt port
    (gridStringToAddrinfo einval (buf.take 255)).map AddrInfo.key

/-! ## 鍵 -/

/-- `"%s:all"` -/
def containerKey (size : Nat) (cid : Option Bytes) : Bytes :=
  (cid.getD (ascii "(null)") ++ ascii ":all").take (size - 1)

/-- `"%s:%s"` -/
def contentKey (size : Nat) (cid : Option Bytes) (content : Bytes) : Bytes :=
  (cid.getD (ascii "(null)") ++ 58 :: content).take (size - 1)

/-- 記録するときの鍵の大きさ、`STRLEN_CONTAINERID + LIMIT_LENGTH_CONTENTPATH + 8` -/
def addKeySize : Nat := 65 + 1024 + 8

/-- 直すときの鍵の大きさ、`STRLEN_CONTAINERID + LIMIT_LENGTH_CONTENTPATH + 1` -/
def fixKeySize : Nat := 65 + 1024 + 1

/-! ## 記録 -/

def createBrokenContent (cid : Bytes) (path cause : Option Bytes) : BrokenContent where
  containerId := cid.take 64
  contentPath := (path.getD []).take 1024
  cause := if path.isSome then (cause.getD []).take 128 else []
  counter := sv.rawxCount

def removeContainer (cid : Bytes) (c : BrokenContent) : Bool :=
  strcaseeq (c.containerId.take 65) (cid.take 65)

/-- `broken_holder_add_container` -/
def addContainer (cid : Bytes) (content cause : Option Bytes) (t : Containers) : Containers :=
  if (t (containerKey addKeySize (some cid))).isSome then t
  else
    match content with
    | some name =>
      if (t (contentKey addKeySize (some cid) name)).isSome then t
      else update t (contentKey addKeySize (some cid) name)
        (some (createBrokenContent sv cid (some name) cause))
    | none =>
      update (fun k => (t k).filter fun c => !removeContainer cid c)
        (containerKey addKeySize (some cid)) (some (createBrokenContent sv cid none none))

def createBrokenMeta2 : BrokenMeta2 := ⟨0, false, fun _ => none, nofun⟩

def breakMeta2 (m : BrokenMeta2) : BrokenMeta2 :=
  if m.totallyBroken then m
  else ⟨(sv.rawx.map fun n => toInt32 n.toNat).getD m.counter, true, fun _ => none, fun _ _ => rfl⟩

/-- `broken_holder_add_in_meta2` の、見つけた META2 の部分 -/
def addInBrokenMeta2 (f : BrokenFields) (m : BrokenMeta2) : BrokenMeta2 :=
  if m.totallyBroken then m
  else
    match f.cid with
    | none => breakMeta2 sv m
    | some cid =>
      ⟨m.counter, false, addContainer sv cid f.content f.cause m.brokenContainers, nofun⟩

/-- `broken_holder_add_in_meta2` -/
def addInMeta2 (einval : Bool) (f : BrokenFields) (h : BrokenHolder) : BrokenHolder :=
  match buildAddrInfo einval f.ip f.port with
  | none => h
  | some a =>
    { h with
      meta2 := update h.meta2 a
        (some (addInBrokenMeta2 sv f ((h.meta2 a).getD createBrokenMeta2))) }

/-- `broken_holder_add_meta1` -/
def addMeta1 (einval : Bool) (f : BrokenFields) (h : BrokenHolder) : BrokenHolder :=
  match buildAddrInfo einval f.ip f.port with
  | none => h
  | some a =>
    if (h.meta1 a).isSome then h
    else { h with meta1 := update h.meta1 a (some ⟨sv.meta2Count⟩) }

/-- 空の token は NULL -/
def token (t : Bytes) : Option Bytes := if t.isEmpty then none else some t

/-- `broken_holder_add_element` -/
def addElement (einval : Bool) (element : Bytes) (h : BrokenHolder) : BrokenHolder :=
  match strsplit 58 0 element with
  | [t0, t1] => addInMeta2 sv einval ⟨t0, atoi t1, none, none, none⟩ h
  | [t0, t1, t2] =>
    if !strcaseeq t0 (ascii "META1") then addMeta1 sv einval ⟨t1, atoi t2, none, none, none⟩ h
    else addInMeta2 sv einval ⟨t0, atoi t1, token t2, none, none⟩ h
  | [t0, t1, t2, t3] => addInMeta2 sv einval ⟨t0, atoi t1, token t2, token t3, none⟩ h
  | [t0, t1, t2, t3, t4] => addInMeta2 sv einval ⟨t0, atoi t1, token t2, token t3, token t4⟩ h
  | _ => h

/-! ## 修理 -/

def contentCounter : CounterOf BrokenContent where
  get := BrokenContent.counter
  set c n := { c with counter := n }
  get_set _ _ := rfl
  set_set _ _ _ := rfl

def meta1Counter : CounterOf BrokenMeta1 where
  get := BrokenMeta1.counter
  set _ n := ⟨n⟩
  get_set _ _ := rfl
  set_set _ _ _ := rfl

def meta2Counter : CounterOf BrokenMeta2 where
  get := BrokenMeta2.counter
  set m n := { m with counter := n }
  get_set _ _ := rfl
  set_set _ _ _ := rfl

/-- `broken_holder_fix_meta1` -/
def fixMeta1 (einval : Bool) (f : BrokenFields) (h : BrokenHolder) : BrokenHolder :=
  match buildAddrInfo einval f.ip f.port with
  | none => h
  | some a => { h with meta1 := update h.meta1 a (countdown meta1Counter (h.meta1 a)) }

/-- `broken_holder_fix_meta2` -/
def fixMeta2 (einval : Bool) (f : BrokenFields) (h : BrokenHolder) : BrokenHolder :=
  match buildAddrInfo einval f.ip f.port with
  | none => h
  | some a =>
    if (h.meta2 a).any (·.totallyBroken) then h
    else { h with meta2 := update h.meta2 a (countdown meta2Counter (h.meta2 a)) }

def fixKey (f : BrokenFields) : Bytes :=
  match f.content with
  | some content => contentKey fixKeySize f.cid content
  | none => containerKey fixKeySize f.cid

/-- `broken_holder_fix_content` と `broken_holder_fix_container` -/
def fixContainers (k : Bytes) (t : Containers) : Containers :=
  update t k (countdown contentCounter (t k))

def fixInOneMeta2 (f : BrokenFields) (m : BrokenMeta2) : BrokenMeta2 :=
  if m.totallyBroken then m
  else ⟨m.counter, false, fixContainers (fixKey f) m.brokenContainers, nofun⟩

/-- `broken_holder_fix_in_meta2`。番地が読めないか port が 0 なら、すべての META2 で直す。 -/
def fixInMeta2 (einval : Bool) (f : BrokenFields) (h : BrokenHolder) : BrokenHolder :=
  match if f.port = 0 then none else buildAddrInfo einval f.ip f.port with
  | none => { h with meta2 := fun a => (h.meta2 a).map (fixInOneMeta2 f) }
  | some a => { h with meta2 := update h.meta2 a ((h.meta2 a).map (fixInOneMeta2 f)) }

/-- `broken_holder_fix_element` -/
def fixElement (einval : Bool) (element : Bytes) (h : BrokenHolder) : BrokenHolder :=
  match strsplit 58 0 element with
  | [t0, t1] => fixMeta2 einval ⟨t0, atoi t1, none, none, none⟩ h
  | [t0, t1, t2] =>
    if !strcaseeq t0 (ascii "META1") then fixMeta1 einval ⟨t1, atoi t2, none, none, none⟩ h
    else fixInMeta2 einval ⟨t0, atoi t1, token t2, none, none⟩ h
  | [t0, t1, t2, t3] => fixInMeta2 einval ⟨t0, atoi t1, token t2, token t3, none⟩ h
  | [t0, t1, t2, t3, t4] => fixInMeta2 einval ⟨t0, atoi t1, token t2, token t3, token t4⟩ h
  | _ => h

end Redcurrant.Conscience
