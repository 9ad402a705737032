import Mathlib.Data.List.DropRight
import Redcurrant.Infra.Cstring
import Redcurrant.Infra.Joined

/-!
# client の URL

`hc://namespace/reference/path?option=value&...`。最後の `?` の後が option で、「名=値」のまま逆順に並ぶ。
-/

namespace Redcurrant.Metautils

open Infra List

/-- `struct hc_url_s`。`hexid` の `none` は先頭の byte が 0 であること。 -/
structure HcUrl where
  (ns refname path : Option Bytes)
  options : List Bytes
  (pns vns whole hexid : Option Bytes)
  deriving DecidableEq

def hcUrlEmpty : HcUrl := ⟨none, none, none, [], none, none, none, none⟩

/-- `metautils_lstrip(s, '/')` -/
def lstrip (s : Bytes) : Bytes := s.dropWhile (· == 47)

/-- `metautils_rstrip(s, '/')` -/
def rstrip (s : Bytes) : Bytes := s.rdropWhile (· == 47)

/-! ## namespace -/

def splitNs (ns : Bytes) : Bytes × Option Bytes :=
  match splitAtChar 46 ns with
  | none => (ns, none)
  | some (pns, vns) => (pns, some (46 :: vns))

variable (u : HcUrl) (sha256 : Bytes → Bytes)

def HcUrl.parseNs : HcUrl :=
  match u.ns with
  | none => u
  | some ns =>
    { u with
      ns := some (rstrip ns)
      pns := some (rstrip (splitNs ns).1)
      -- 点が無ければ、前の virtual な部分が残る
      vns := ((splitNs ns).2.orElse fun _ => u.vns).map rstrip }

/-! ## option -/

def optionName (packed : Bytes) : Bytes := packed.takeWhile (· ≠ 61)

def optionValue (packed : Bytes) : Bytes := (packed.dropWhile (· ≠ 61)).tail

def replaceOption (k packed : Bytes) : List Bytes → Option (List Bytes)
  | [] => none
  | o :: options =>
    if optionName o = k then some (packed :: options)
    else (replaceOption k packed options).map (o :: ·)

/-- 名の option を置き換える。無ければ先頭に加える。 -/
def putOption (k packed : Bytes) (options : List Bytes) : List Bytes :=
  (replaceOption k packed options).getD (packed :: options)

/-- `hc_url_set_option`。NULL の値は `(null)` と書かれる。 -/
def HcUrl.setOption (k : Bytes) (v : Option Bytes) : HcUrl :=
  { u with
    options := putOption k (k ++ 61 :: v.getD (ascii "(null)")) u.options
    whole := none }

def HcUrl.getOptionValue (k : Bytes) : Option Bytes :=
  (u.options.find? fun o => optionName o == k).map optionValue

def HcUrl.addOption (piece : Bytes) : HcUrl :=
  if 61 ∈ piece then u.setOption (optionName piece) (some (optionValue piece)) else u

def HcUrl.parseOptions (options : Option Bytes) : HcUrl :=
  (strsplit 38 0 (options.getD [])).foldl HcUrl.addOption { u with options := [] }

/-! ## 全体 -/

def urlBody (str : Bytes) : Bytes :=
  lstrip (if hasPrefix str (ascii "grid://") then str.drop 7
    else if hasPrefix str (ascii "hc://") then str.drop 5
    else if hasPrefix str (ascii "redc://") then str.drop 7
    else str)

def pathText (refname : Bytes) : Option Bytes :=
  match splitAtChar 47 refname with
  | some (_, b :: path) => some (b :: path)
  | _ => none

/-- 最後の `?` の前と後ろ。後ろが空のものは option とみなさない。 -/
def queryText (text : Bytes) : Option (Bytes × Bytes) :=
  (splitAtLast 63 text).filter fun q => !q.2.isEmpty

def HcUrl.parseUrl (str : Bytes) : HcUrl × Bool :=
  let body := urlBody str
  if body = [] then (u, false)
  else
    match splitAtChar 47 body with
    | none => ({ (({ u with ns := some body } : HcUrl).parseNs) with
        refname := u.refname.map rstrip }, true)
    | some (_, rest) =>
      let refname := lstrip rest
      let ns := body.take (body.length - refname.length - 1)
      let tail := (pathText refname).getD refname
      let u := if 63 ∈ tail then u.parseOptions ((queryText tail).map Prod.snd) else u
      let cut := ((queryText tail).map Prod.fst).getD tail
      match pathText refname with
      | some _ => ({ (({ u with ns := some ns } : HcUrl).parseNs) with
          refname := some (rstrip (refname.takeWhile (· ≠ 47)))
          path := some cut }, true)
      | none => ({ (({ u with ns := some ns } : HcUrl).parseNs) with
          refname := some (rstrip cut) }, true)

def hcUrlInit (str : Bytes) : Option HcUrl :=
  match hcUrlEmpty.parseUrl str with
  | (u, true) => some u
  | (_, false) => none

/-! ## 読み書き -/

/-- `enum hc_url_field_e` -/
inductive UrlField
  | ns | nsphys | nsvirt | reference | path | options | version | snapshot | whole | hexid
  | snaporvers
  deriving DecidableEq

/-- `meta1_name2hash` に渡る文字列 -/
def hashedName (ns : Option Bytes) (refname : Bytes) : Bytes :=
  match ns with
  | some ns => if 46 ∈ ns then ns ++ 47 :: refname else refname
  | none => refname

/-- `buffer2str` -/
def hexUpper (b : Bytes) : Bytes :=
  b.flatMap fun x => [hexDigitUpper (x.toNat / 16), hexDigitUpper (x.toNat % 16)]
where
  hexDigitUpper (n : Nat) : UInt8 := UInt8.ofNat (if n < 10 then 48 + n else 55 + n)

def HcUrl.has : UrlField → Bool
  | .ns => u.ns.isSome
  | .nsphys => u.pns.isSome
  | .nsvirt => u.vns.isSome
  | .reference => u.refname.isSome
  | .path => u.path.isSome
  | .options => !u.options.isEmpty
  | .version => (u.getOptionValue (ascii "version")).isSome
  | .snapshot => (u.getOptionValue (ascii "snapshot")).isSome
  | .whole => u.whole.isSome || u.ns.isSome && u.refname.isSome
  | .hexid => u.hexid.isSome || u.refname.isSome
  | .snaporvers => (u.getOptionValue (ascii "snapshot")).isSome ||
      (u.getOptionValue (ascii "version")).isSome

/-- `hc_url_get` の `HCURL_HEXID` -/
def HcUrl.getHexid (u : HcUrl) : HcUrl × Option Bytes :=
  match u.hexid with
  | some h => (u, some h)
  | none =>
    match u.refname with
    | none => (u, none)
    | some refname =>
      let h := hexUpper (sha256 (hashedName u.ns refname))
      ({ u with hexid := some h }, some h)

def appendOptions (options : List Bytes) : Bytes :=
  if options.isEmpty then [] else 63 :: [38].intercalate options

/-- `hc_url_get` の `HCURL_WHOLE` -/
def HcUrl.getWhole (u : HcUrl) : HcUrl × Option Bytes :=
  match u.whole with
  | some w => (u, some w)
  | none =>
    if !u.has .ns || !u.has .reference && !u.has .hexid then (u, none)
    else
      let (u, ref) := match u.refname with
        | some refname => (u, some refname)
        | none => u.getHexid sha256
      let w := u.ns.getD [] ++ (ref.map fun r => 47 :: r).getD [] ++
        (u.path.map fun p => 47 :: p).getD [] ++ appendOptions u.options
      ({ u with whole := some w }, some w)

def HcUrl.get (u : HcUrl) : UrlField → HcUrl × Option Bytes
  | .ns => (u, u.ns)
  | .nsphys => (u, u.pns)
  | .nsvirt => (u, u.vns)
  | .reference => (u, u.refname)
  | .path => (u, u.path)
  | .options => (u, none)
  | .version => (u, u.getOptionValue (ascii "version"))
  | .snapshot => (u, u.getOptionValue (ascii "snapshot"))
  | .whole => u.getWhole sha256
  | .hexid => u.getHexid sha256
  | .snaporvers =>
    (u, (u.getOptionValue (ascii "snapshot")).orElse fun _ => u.getOptionValue (ascii "version"))

def joinNs (pns vns : Option Bytes) : Option Bytes :=
  match pns, vns with
  | some p, some v => some (p ++ 46 :: v)
  | p, _ => p

/-- `hc_url_set`。16 進の id は扱わない。`none` は NULL の全体を読むこと。 -/
def HcUrl.set (f : UrlField) (v : Option Bytes) : Option HcUrl :=
  match f with
  | .ns =>
    some ({ u with ns := v, pns := none, vns := none, whole := none, hexid := none } : HcUrl).parseNs
  | .nsphys => some { u with ns := joinNs v u.vns, pns := v, whole := none }
  | .nsvirt => some { u with ns := joinNs u.pns v, vns := v, whole := none, hexid := none }
  | .reference => some { u with refname := v, whole := none, hexid := none }
  | .path => some { u with path := v, whole := none }
  | .options => some (u.parseOptions v)
  | .snaporvers | .version => some (u.setOption (ascii "version") v)
  | .snapshot => some (u.setOption (ascii "snapshot") v)
  | .whole => v.map fun v =>
    (({ u with
      ns := none, pns := none, vns := none, refname := none, path := none, whole := none
      hexid := none } : HcUrl).parseUrl v).1
  | .hexid => none

/-! ## `/` を除くこと -/

section

variable {s n : Bytes}

theorem lstrip_head (s : Bytes) : (lstrip s).head? ≠ some 47 := by
  intro h
  have := List.head?_dropWhile_not (· == 47) s
  rw [lstrip] at h
  rw [h] at this
  simp at this

theorem lstrip_eq_self (h : s.head? ≠ some 47) : lstrip s = s := by
  cases s with
  | nil => rfl
  | cons b s =>
    have hb : b ≠ 47 := by simpa using h
    rw [lstrip, dropWhile_cons_of_neg (by simpa using hb)]

theorem rstrip_eq_self (h : 47 ∉ s) : rstrip s = s := by
  refine rdropWhile_eq_self_iff.mpr fun hne hlast => h ?_
  rw [← beq_iff_eq.mp hlast]
  exact getLast_mem hne

theorem rstrip_append (s : Bytes) : ∃ slashes, s = rstrip s ++ slashes :=
  ⟨s.rtakeWhile (· == 47), rdropWhile_append_rtakeWhile.symm⟩

theorem take_ns (n rest : Bytes) : ∃ slashes,
    (n ++ 47 :: rest).take ((n ++ 47 :: rest).length - (lstrip rest).length - 1) = n ++ slashes ∧
      ∀ b ∈ slashes, b = 47 := by
  obtain ⟨slashes, hrest, hall⟩ : ∃ slashes, rest = slashes ++ lstrip rest ∧ ∀ b ∈ slashes, b = 47 :=
    ⟨rest.takeWhile (· == 47), (takeWhile_append_dropWhile).symm,
      fun b hb => by simpa using mem_takeWhile_imp hb⟩
  have hlen : (n ++ 47 :: rest).length - (lstrip rest).length - 1 = (n ++ slashes).length := by
    have := congrArg List.length hrest
    simp only [length_append, length_cons] at this ⊢
    omega
  have hcomm : 47 :: slashes = slashes ++ [47] := by
    rw [eq_replicate_of_mem hall, ← replicate_succ, replicate_succ']
  have hwhole : n ++ 47 :: rest = (n ++ slashes) ++ 47 :: lstrip rest := by
    conv_lhs => rw [hrest]
    rw [← cons_append, hcomm]
    simp
  exact ⟨slashes, by rw [hlen, hwhole, take_left], hall⟩

theorem rstrip_ns (hn : 47 ∉ n) (rest : Bytes) :
    rstrip ((n ++ 47 :: rest).take ((n ++ 47 :: rest).length - (lstrip rest).length - 1)) = n := by
  obtain ⟨slashes, htake, hall⟩ := take_ns n rest
  rw [htake]
  clear htake
  induction slashes using List.reverseRecOn with
  | nil => rw [append_nil, rstrip_eq_self hn]
  | append_singleton slashes b ih =>
    have hb : b = 47 := hall b (by simp)
    rw [rstrip, ← append_assoc, rdropWhile_concat_pos _ _ _ (by simp [hb])]
    exact ih fun b hb => hall b (mem_append_left _ hb)

end

end Redcurrant.Metautils
