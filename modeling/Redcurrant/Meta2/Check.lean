import Mathlib.Data.Prod.Lex
import Redcurrant.Infra.Blocks
import Redcurrant.Meta2.Lookup
import Redcurrant.Metautils.Service

/-!
# content の検査

`meta2_utils_check.c`。content の行と chunk の組（`ChunkPair`）を位置の順に hook に渡し、policy に合うかを調べる。
-/

namespace Redcurrant.Meta2

open Infra Metautils Sqliterepo

def codeContentCorrupted : Int := 425

def codePolicyNotSatisfiable : Int := 481

/-! ## 位置 -/

/-- chunk の位置。`rain` は下位の位置で、無ければ −1。 -/
structure Position where
  metaPos : Int
  parity : Bool
  rain : Int
  deriving DecidableEq

/-- 数を 1 つ読む。範囲の端の値は error になる。`einval` は `errno` に `EINVAL` が残っていること。 -/
def readNumber (einval : Bool) (s : Bytes) : Option (Int × Bytes) :=
  let v := strtoll s
  if (v == 0 && einval) || v == -2 ^ 63 || v == 2 ^ 63 - 1 then none
  else some (v, (strtollEnd s).getD s)

/-- `m2v2_parse_chunk_position` -/
def parseChunkPosition (einval : Bool) (s : Bytes) : Option Position :=
  match readNumber einval s with
  | some (p, []) => some ⟨toInt32 p, false, -1⟩
  | some (p, 46 :: c :: t) =>
    match readNumber einval (if c == 112 then t else c :: t) with
    | some (q, []) => some ⟨toInt32 p, c == 112, toInt32 q⟩
    | _ => none
  | _ => none

/-- `init_chunk_pair` が付ける位置。読めない位置は −1 のまま残る。 -/
def Content.place (c : Content) : Position :=
  (parseChunkPosition false (cstr c.position)).getD ⟨-1, false, -1⟩

/-- `compare_pairs_positions` の順 -/
def Position.rank (p : Position) : Int ×ₗ Int ×ₗ Int :=
  toLex (p.metaPos, toLex (if p.parity then 1 else 0, p.rain))

/-- `chunk_pair_t`。位置は content の行から決まる。 -/
structure ChunkPair where
  content : Content
  chunk : Chunk
  deriving DecidableEq

def ChunkPair.position (p : ChunkPair) : Position := p.content.place

/-! ## 欠陥 -/

inductive RainFlaw
  | badpos
  | toomuch
  | toofew
  | lost
  | badDistance
  | badAlgo
  deriving DecidableEq

/-- `struct m2v2_check_error_s` -/
inductive Flaw
  | dupliBadpos (pair : ChunkPair)
  | dupliGap (firstMissing lastMissing : Int)
  | dupliSize (pairs : List ChunkPair)
  | dupliHash (pairs : List ChunkPair)
  | dupliToomuch (pairs : List ChunkPair) (count : Nat)
  | dupliToofew (pairs : List ChunkPair) (count dist : Nat)
  | dupliBadDistance (pairs : List ChunkPair)
  | rain (flaw : RainFlaw)
  | contentSizeMismatch
  | contentStgclass (bad all : List ChunkPair)
  | rawxUnknown (pair : ChunkPair)
  deriving DecidableEq

/-- `_m2v2_check_error_str` -/
def Flaw.errorStr : Flaw → String
  | .dupliBadpos _ => "Bad chunk position (dupli)"
  | .dupliGap _ _ => "Gap in positions (dupli)"
  | .dupliSize _ => "Chunk size mismatch"
  | .dupliHash _ => "Chunk hash mismatch"
  | .dupliToomuch _ _ => "Too many chunks at same position (dupli)"
  | .dupliToofew _ _ _ => "Too few chunks at same position"
  | .dupliBadDistance _ => "Insufficient distance between chunks (dupli)"
  | .rain .badpos => "Bad format for position (RAIN)"
  | .rain .toomuch => "Too many chunks at same position (RAIN)"
  | .rain .toofew => "Missing chunks (RAIN)"
  | .rain .lost => "Too many chunks missing, RAIN reconstruction not possible"
  | .rain .badDistance => "Insufficient distance between chunks (RAIN)"
  | .rain .badAlgo => "Wrong RAIN algorithm"
  | .contentSizeMismatch => "Content size mismatch"
  | .contentStgclass _ _ => "Wrong storage class"
  | .rawxUnknown _ => "RAWX not found in services"

/-- `mask_checks` -/
structure CheckMask where
  (gaps dist stgcls srvinfo : Bool)
  deriving DecidableEq

def CheckMask.all : CheckMask := ⟨true, true, true, true⟩

/-- `_count_meaningful_flaws` が数える欠陥 -/
def Flaw.meaningful (mask : CheckMask) : Flaw → Bool
  | .dupliGap _ _ => mask.gaps
  | .dupliBadDistance _ => mask.dist
  | .rain .badAlgo => true
  | .rain _ => mask.dist
  | .contentStgclass _ _ => mask.stgcls
  | .rawxUnknown _ => mask.srvinfo
  | _ => true

/-! ## 検査の環境 -/

/-- `data_security_get_type` -/
inductive SecurityType
  | dsNone
  | dupli
  | rain
  deriving DecidableEq

/-- `struct storage_policy_s` のうち、検査が読む部分 -/
structure StoragePolicy where
  storageClass : Option StorageClass
  security : SecurityType
  params : Bytes → Option Bytes

/-- `_get_int_param`。`atoi` の値を `guint` として受け取る。 -/
def StoragePolicy.getIntParam (pol : StoragePolicy) (key : String) (dflt : Nat) : Nat :=
  match pol.params (ascii key) with
  | none => dflt
  | some v => (atoi v % 2 ^ 32).toNat

/-- 複製の数（`DS_KEY_COPY_COUNT`） -/
def StoragePolicy.copies (pol : StoragePolicy) : Nat := pol.getIntParam "nb_copy" 1

/-- namespace の policy、rawx の pool、`RAIN` の検査 -/
structure CheckArgs where
  policies : Bytes → Option StoragePolicy
  rawx : Bytes → Option ServiceInfo
  rained : Header → List ChunkPair → List Flaw

def extractUrlFromChunk (c : Chunk) : Bytes :=
  let start := match c.id.tails.find? (hasPrefix · (ascii "://")) with
    | some t => t.drop 3
    | none => c.id
  start.takeWhile (· ≠ 47)

variable (args : CheckArgs) (pol : StoragePolicy)

/-- chunk を持つ rawx -/
def CheckArgs.rawxOf (c : Chunk) : Option ServiceInfo := args.rawx (extractUrlFromChunk c)

/-- `location_from_chunk`。location の無い rawx は空の location を持つ。 -/
def CheckArgs.locationFromChunk (c : Chunk) : Option Bytes :=
  (args.rawxOf c).map fun rawx => rawx.location.getD []

/-! ## 複製の hook -/

/-- `hook_CHUNK_stgclass` が集める chunk。知らない rawx の chunk は調べない。 -/
def badStgclass (pair : ChunkPair) : Bool :=
  match args.rawxOf pair.chunk with
  | none => false
  | some rawx =>
    !storageClassIsSatisfied2 pol.storageClass (some (rawx.stgclass.getD (ascii "NONE"))) false

def checkDistances (locations : List Bytes) (distance : Nat) : Bool :=
  decide (locations.Pairwise fun a b => distance ≤ locationDistance a b)

/-- `_alert_for_invalid_dupli_stgpol`。同じ位置の chunk を調べる。header の大きさは正。 -/
def alertForInvalidDupliStgpol (replicas distance : Nat) : List ChunkPair → List Flaw
  | [] => []
  | p :: l =>
    (if l.any fun q => q.chunk.size != p.chunk.size then [.dupliSize (p :: l)] else []) ++
    (if l.any fun q => q.chunk.hash != p.chunk.hash then [.dupliHash (p :: l)] else []) ++
    (if (p :: l).length < replicas then
      [.dupliToofew (p :: l) (replicas - (p :: l).length) distance]
    else if replicas < (p :: l).length then
      [.dupliToomuch (p :: l) ((p :: l).length - replicas)]
    else []) ++
    ((p :: l).filter fun q => (args.locationFromChunk q.chunk).isNone).map .rawxUnknown ++
    (if checkDistances ((p :: l).filterMap fun q => args.locationFromChunk q.chunk) distance
      then [] else [.dupliBadDistance (p :: l)])

/-- `struct ctx_dupli_stgpol_s` -/
structure DupliStgpol where
  last : Option ChunkPair
  pairs : List ChunkPair

def hookChunkDupliStgpol (replicas distance : Nat) (s : DupliStgpol) (pair : ChunkPair) :
    DupliStgpol × List Flaw :=
  match s.last with
  | none => (⟨some pair, s.pairs ++ [pair]⟩, [])
  | some last =>
    if pair.position.metaPos ≠ last.position.metaPos then
      (⟨some pair, [pair]⟩, (if last.position.metaPos + 1 ≠ pair.position.metaPos then
          [.dupliGap (last.position.metaPos + 1) (pair.position.metaPos - 1)] else []) ++
        alertForInvalidDupliStgpol args replicas distance s.pairs)
    else (⟨some pair, s.pairs ++ [pair]⟩, [])

/-- `hook_END_dupli_stgpol`。chunk が 1 つも来なければ、位置 0 が欠けている。 -/
def hookEndDupliStgpol (replicas distance : Nat) (s : DupliStgpol) : List Flaw :=
  if s.last.isNone then [.dupliGap 0 0]
  else alertForInvalidDupliStgpol args replicas distance s.pairs

/-- `struct ctx_total_size_s` -/
structure TotalSize where
  last : Option ChunkPair
  sizeTotal : Int

def hookChunkDupliTotalSize (s : TotalSize) (pair : ChunkPair) : TotalSize :=
  if s.last.any fun last => last.position == pair.position then s
  else ⟨some pair, toInt64 (s.sizeTotal + pair.chunk.size)⟩

/-- 4 つの hook の文脈と、積まれた欠陥 -/
structure DupliCheck where
  badPairs : List ChunkPair
  stgpol : DupliStgpol
  total : TotalSize
  flaws : List Flaw

def DupliCheck.init : DupliCheck := ⟨[], ⟨none, []⟩, ⟨none, 0⟩, []⟩

/-- `_check_one_chunk`。下位の位置を持つ chunk は最初の hook で止まる。 -/
def checkOneChunk (replicas distance : Nat) (s : DupliCheck) (pair : ChunkPair) : DupliCheck :=
  if pair.position.rain ≠ -1 then { s with flaws := s.flaws ++ [.dupliBadpos pair] }
  else
    let stgpol := hookChunkDupliStgpol args replicas distance s.stgpol pair
    { badPairs := if badStgclass args pol pair then s.badPairs ++ [pair] else s.badPairs
      stgpol := stgpol.1
      total := hookChunkDupliTotalSize s.total pair
      flaws := s.flaws ++ stgpol.2 }

/-- `_check_dupli_alias`。大きさが正でない content は調べない。 -/
def checkDupliAlias (header : Header) (chunks : List ChunkPair) (replicas distance : Nat) :
    List Flaw :=
  if 0 < header.size then
    let s := chunks.foldl (checkOneChunk args pol replicas distance) .init
    s.flaws ++
    (if s.badPairs.isEmpty then [] else [.contentStgclass s.badPairs chunks]) ++
    hookEndDupliStgpol args replicas distance s.stgpol ++
    (if s.total.sizeTotal ≠ header.size then [.contentSizeMismatch] else [])
  else []

def checkHeader (header : Header) (chunks : List ChunkPair) : List Flaw :=
  match pol.security with
  | .dupli => checkDupliAlias args pol header chunks pol.copies (pol.getIntParam "distance" 1)
  | .dsNone => checkDupliAlias args pol header chunks 1 1
  | .rain => args.rained header chunks

/-! ## alias の検査 -/

/-- `init_chunk_pair`。chunk の無い content の行は組にならない。 -/
def initChunkPair (chunks : List Chunk) (c : Content) : Option ChunkPair :=
  (chunks.find? (·.id == c.chunkId)).map fun k => ⟨c, k⟩

/-- `_load_header_chunks` が集める組 -/
def pairsOf (beans : List Bean) (id : Bytes) : List ChunkPair :=
  ((contentsIn beans).filter (·.contentId == id)).filterMap (initChunkPair (chunksIn beans))

def getHeader (beans : List Bean) (id : Bytes) : Option Header :=
  (headersIn beans).find? (·.id == id)

def loadStoragePolicy (header : Header) : Except GError StoragePolicy :=
  match header.policy with
  | none => .error ⟨codePolicyNotSatisfiable, "Storage Policy undefined"⟩
  | some name =>
    match args.policies name with
    | none => .error ⟨codePolicyNotSatisfiable, "Storage Policy unknown [" ++ text name ++ "]"⟩
    | some pol => .ok pol

/-- alias の header、policy、位置の順に安定に並べた chunk -/
def loadHeaderCheck (beans : List Bean) (a : Alias) :
    Except GError (Header × StoragePolicy × List ChunkPair) :=
  match getHeader beans a.contentId with
  | none => .error ⟨codeContentCorrupted, "Missing HEADER"⟩
  | some header => do
    let pol ← loadStoragePolicy args header
    return (header, pol, orderBy (·.position.rank) (pairsOf beans header.id))

/-- `_check_alias`。header や policy が引けないときも、chunk が無いという error になる。 -/
def checkAlias (beans : List Bean) (a : Alias) : Except GError (List Flaw) :=
  match loadHeaderCheck args beans a with
  | .ok (header, pol, chunks) =>
    if chunks.isEmpty then .error ⟨400, "No chunk/content"⟩
    else .ok (checkHeader args pol header chunks)
  | .error _ => .error ⟨400, "No chunk/content"⟩

/-- `m2v2_check_consistency`。成功すれば欠陥を返す。 -/
def checkConsistency (beans : List Bean) : Except GError (List Flaw) :=
  let results := (aliasesIn beans).map (checkAlias args beans)
  if results.isEmpty then .error ⟨400, "No alias"⟩
  else if results.any fun r => !r.toBool then .error ⟨500, "Check failed, check for flaws"⟩
  else .ok (results.flatMap fun r => r.toOption.getD [])

def flawsToStr (flaws : List Flaw) : String := ", ".intercalate (flaws.map Flaw.errorStr)

/-- `m2db_check_alias_beans_list` -/
def checkAliasBeansList (mask : CheckMask) (beans : List Bean) : Option GError :=
  match checkConsistency args beans with
  | .error e => some e
  | .ok flaws =>
    if flaws.any (Flaw.meaningful mask) then
      some ⟨codeContentCorrupted, "Flaws found (" ++ flawsToStr flaws ++ ")"⟩
    else none

end Redcurrant.Meta2
