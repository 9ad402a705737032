import Redcurrant.Infra.Stdio

/-!
# zlib で圧縮した chunk

`zlib_compress.c` と圧縮の loop。file は header、長さの付いた block の列、終わりの印と checksum からなる。
-/

namespace Redcurrant.Rawx

open Infra

/-! ## zlib -/

/-- zlib の `compress` と `uncompress`。`uncompress` は与えられた長さに書く。圧縮したものは空でない。 -/
structure Zlib where
  compress : Bytes → Bytes
  uncompress : Nat → Bytes → Bool × Bytes
  compress_ne_nil : ∀ b, compress b ≠ []
  length_uncompress_le : ∀ n s, (uncompress n s).2.length ≤ n
  uncompress_compress : ∀ b n, b.length ≤ n → uncompress n (compress b) = (true, b)

def adlerStep (s : Nat × Nat) (c : UInt8) : Nat × Nat :=
  ((s.1 + c.toNat) % 65521, (s.2 + (s.1 + c.toNat) % 65521) % 65521)

def adler32 (sum : Nat) (buf : Bytes) : Nat :=
  let s := buf.foldl adlerStep (sum % 65536, sum / 65536)
  s.2 * 65536 + s.1

/-- `adler32(0, NULL, 0)` -/
def adler32Init : Nat := 1

/-! ## 書き手 -/

/-- 読み手が受け付ける block の長さ -/
structure BlockSize where
  val : Nat
  ge : 1024 ≤ val
  le : val ≤ 8388608

def magic : Bytes := [0x00, 0xe9, 0x5a, 0x4c, 0x49, 0x42, 0xff, 0x1a]

/-- `zlib_write_compress_header` -/
def writeCompressHeader (blocksize : Nat) : Bytes := magic ++ leBytes 4 blocksize

/-- `zlib_write_compress_eof` -/
def writeCompressEof (checksum : Nat) : Bytes := leBytes 4 0 ++ leBytes 8 checksum

variable (z : Zlib)

/-- `zlib_compress_chunk_part`。短くならない block はそのまま書く。 -/
def compressChunkPart (buf : Bytes) (checksum : Nat) : Bytes × Nat :=
  let out := z.compress buf
  (leBytes 8 buf.length ++ (if out.length < buf.length then leBytes 8 out.length ++ out
    else leBytes 8 buf.length ++ buf), adler32 checksum buf)

/-- `compress_chunk` の loop。block の長さだけ読めなくなるまで続け、残りも書く。 -/
def compressLoop (z : Zlib) (bsize : BlockSize) (src : Bytes) (checksum : Nat) : Bytes × Nat :=
  if bsize.val ≤ src.length then
    let part := compressChunkPart z (src.take bsize.val) checksum
    let rest := compressLoop z bsize (src.drop bsize.val) part.2
    (part.1 ++ rest.1, rest.2)
  else if src = [] then ([], checksum)
  else compressChunkPart z src checksum
termination_by src.length
decreasing_by
  have := bsize.ge
  rw [List.length_drop]
  omega

def compressFile (bsize : BlockSize) (content : Bytes) : Bytes :=
  let body := compressLoop z bsize content adler32Init
  writeCompressHeader bsize.val ++ (body.1 ++ writeCompressEof body.2)

/-! ## 読み手 -/

/-- `struct compressed_chunk_s`。`fd` はまだ読んでいない部分。 -/
structure CompressedChunk where
  fd : Bytes
  buf : Option Bytes
  (dataLen bufLen bufOffset read blockSize checksum : Nat)
  deriving DecidableEq

variable (chunk : CompressedChunk)

/-- buffer の残りの長さ。`guint` の引き算。 -/
def CompressedChunk.left : Nat := (chunk.dataLen + 2 ^ 32 - chunk.bufOffset) % 2 ^ 32

/-- `zlib_compressed_chunk_init` -/
def compressedChunkInit (file : Bytes) : Except Nat CompressedChunk :=
  match fread 12 file with
  | (none, _) => .error 2
  | (some headers, fd) =>
    let blockSize := leNat (headers.drop 8)
    if headers.take 8 ≠ magic then .error 4
    else if blockSize < 1024 ∨ 8388608 < blockSize then .error 6
    else .ok ⟨fd, none, 0, 0, 0, 0, blockSize, adler32Init⟩

/-- 目当ての block。`outLen` は元の長さ、`inLen` は圧縮した長さ、`offset` は block の中の位置。 -/
structure Found where
  (outLen inLen offset : Nat)
  deriving DecidableEq

/-- `_zlib_fill_decompressed_buffer` の loop。`toSkip` 番目の byte を含む block を探す。 -/
def seekBlock (toSkip totalSkipped : Nat) (fd : Bytes) : Bytes × Option Found :=
  match _h : fread 8 fd with
  | (none, fd') => (fd', none)
  | (some out, fd') =>
    let outLen := leNat out
    if outLen = 0 then (fd', none)
    else
      match _h' : fread 8 fd' with
      | (none, fd'') => (fd'', none)
      | (some inn, fd'') =>
        let inLen := leNat inn
        if toSkip < (totalSkipped + outLen) % 2 ^ 64 then
          (fd'', some ⟨outLen, inLen, toSkip - totalSkipped⟩)
        else seekBlock toSkip ((totalSkipped + outLen) % 2 ^ 64) (fd''.drop inLen)
termination_by fd.length
decreasing_by
  have := length_of_fread _h
  have := length_of_fread _h'
  rw [List.length_drop]
  omega

/-- 見付けた block を buffer に読む -/
def CompressedChunk.load (inLen : Nat) : CompressedChunk × Int :=
  if chunk.blockSize < inLen ∨ chunk.blockSize < chunk.dataLen ∨ inLen = 0 ∨
      chunk.dataLen < inLen then
    (chunk, -1)
  else
    let chunk := { chunk with bufLen := chunk.dataLen, buf := some (padTo chunk.dataLen []) }
    match fread inLen chunk.fd with
    | (none, fd) =>
      if inLen = chunk.dataLen then
        ({ chunk with fd := fd, buf := some (padTo chunk.dataLen chunk.fd) }, -1)
      else ({ chunk with fd := fd }, -1)
    | (some inn, fd) =>
      if inLen = chunk.dataLen then
        ({ chunk with fd := fd, buf := some inn, checksum := adler32 chunk.checksum inn }, 1)
      else
        let r := z.uncompress chunk.bufLen inn
        let buf := padTo chunk.bufLen r.2
        if r.1 then
          ({ chunk with fd := fd, buf := some buf, checksum := adler32 chunk.checksum buf }, 1)
        else ({ chunk with fd := fd, buf := some buf }, -1)

/-- `_zlib_fill_decompressed_buffer` -/
def CompressedChunk.fillDecompressedBuffer (toSkip : Nat) : CompressedChunk × Int :=
  let chunk := { chunk with buf := none, bufLen := 0, bufOffset := 0, dataLen := 0 }
  match seekBlock toSkip 0 chunk.fd with
  | (fd, none) => ({ chunk with fd := fd }, 0)
  | (fd, some found) =>
    CompressedChunk.load z { chunk with
        fd := fd
        dataLen := found.outLen % 2 ^ 32
        bufOffset := found.offset % 2 ^ 32
        read := (chunk.read + toSkip) % 2 ^ 32 } found.inLen

/-- buffer の中の今の位置から返す。`none` は -1 を表す。 -/
def CompressedChunk.serve (bufLen : Nat) : CompressedChunk × Option Bytes :=
  if chunk.dataLen = 0 then (chunk, some [])
  else
    match chunk.buf with
    | none => (chunk, none)
    | some buf =>
      let maxToRead := min chunk.left bufLen
      ({ chunk with
          read := (chunk.read + maxToRead) % 2 ^ 32
          bufOffset := chunk.bufOffset + maxToRead },
        some ((buf.drop chunk.bufOffset).take maxToRead))

/-- `zlib_compressed_chunk_get_data` -/
def CompressedChunk.getData (offset bufLen : Nat) : CompressedChunk × Option Bytes :=
  let toSkip := if 0 < offset then (offset + 2 ^ 64 - chunk.left) % 2 ^ 64 else 0
  let chunk :=
    if 0 < offset then
      { chunk with bufOffset := min chunk.dataLen ((chunk.bufOffset + offset) % 2 ^ 64) }
    else chunk
  if chunk.buf.isNone ∨ chunk.dataLen = 0 ∨ chunk.dataLen ≤ chunk.bufOffset then
    let filled := chunk.fillDecompressedBuffer z toSkip
    if filled.2 < 0 then (filled.1, none) else filled.1.serve bufLen
  else chunk.serve bufLen

/-- `zlib_compressed_chunk_check_integrity`。`beyond` は 8 byte の領域の後の 4 byte。 -/
def CompressedChunk.checkIntegrity (beyond : Bytes) : Bool :=
  match fread 8 chunk.fd with
  | (none, _) => false
  | (some eofInfo, _) => leNat (eofInfo.drop 4 ++ beyond.take 4) == chunk.checksum

/-! ## 読み出しの列 -/

/-- `get_data` の列の結果 -/
def readAll (z : Zlib) : CompressedChunk → List (Nat × Nat) → List (Option Bytes)
  | _, [] => []
  | chunk, (offset, len) :: rest =>
    let r := chunk.getData z offset len
    r.2 :: readAll z r.1 rest

/-- 何も返らなくなるまで続けて読む。`sizes` は求める長さの列で、先に尽きれば `none`。 -/
def readThrough (z : Zlib) : CompressedChunk → List Nat → Option CompressedChunk
  | _, [] => none
  | chunk, n :: rest =>
    match chunk.getData z 0 n with
    | (_, none) => none
    | (chunk, some d) => if d = [] then some chunk else readThrough z chunk rest

end Redcurrant.Rawx
