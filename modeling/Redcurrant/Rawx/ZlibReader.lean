import Redcurrant.Rawx.Zlib

/-!
# 圧縮した chunk の読み手

読み手は内容の中の cursor として振る舞い（`Slices`）、何も返さないのは終わり以後に限る（`readAll_slices`）。
-/

namespace Redcurrant.Rawx

open Infra List Option CompressedChunk

/-! ## block の列 -/

/-- 読み手が受け付ける block。`payload` は `data` になる。 -/
structure Block (z : Zlib) (bsize : BlockSize) where
  (data payload : Bytes)
  data_le : data.length ≤ bsize.val
  payload_ne_nil : payload ≠ []
  payload_le : payload.length ≤ data.length
  raw : payload.length = data.length → payload = data
  inflates : payload.length < data.length → (z.uncompress data.length payload).1 = true ∧
      padTo data.length (z.uncompress data.length payload).2 = data

section

variable {z : Zlib} {bsize : BlockSize}

variable (b : Block z bsize)

def Block.encode : Bytes := leBytes 8 b.data.length ++ (leBytes 8 b.payload.length ++ b.payload)

def encodeAll (blocks : List (Block z bsize)) : Bytes := blocks.flatMap Block.encode

def dataAll (blocks : List (Block z bsize)) : Bytes := blocks.flatMap Block.data

@[simp] theorem encodeAll_nil : encodeAll ([] : List (Block z bsize)) = [] := rfl

@[simp] theorem dataAll_nil : dataAll ([] : List (Block z bsize)) = [] := rfl

@[simp] theorem encodeAll_cons (blocks : List (Block z bsize)) :
    encodeAll (b :: blocks) = b.encode ++ encodeAll blocks := flatMap_cons

@[simp] theorem dataAll_cons (blocks : List (Block z bsize)) :
    dataAll (b :: blocks) = b.data ++ dataAll blocks := flatMap_cons

theorem Block.length_pos : 0 < b.data.length :=
  Nat.lt_of_lt_of_le (length_pos_iff.mpr b.payload_ne_nil) b.payload_le

theorem Block.length_lt : b.data.length < 2 ^ 32 :=
  Nat.lt_of_le_of_lt (Nat.le_trans b.data_le bsize.le) (by decide)

/-! ## 書き手は block の列を書く -/

def compressBlock (z : Zlib) (bsize : BlockSize) (buf : Bytes) (hne : buf ≠ [])
    (hle : buf.length ≤ bsize.val) : Block z bsize :=
  if h : (z.compress buf).length < buf.length then
    { data := buf
      payload := z.compress buf
      data_le := hle
      payload_ne_nil := z.compress_ne_nil buf
      payload_le := Nat.le_of_lt h
      raw := fun heq => absurd heq (Nat.ne_of_lt h)
      inflates := fun _ => by
        rw [z.uncompress_compress buf _ (Nat.le_refl _), padTo, Nat.sub_self]
        exact ⟨rfl, append_nil _⟩ }
  else
    { data := buf
      payload := buf
      data_le := hle
      payload_ne_nil := hne
      payload_le := Nat.le_refl _
      raw := fun _ => rfl
      inflates := fun hlt => absurd hlt (Nat.lt_irrefl _) }

variable {buf rest : Bytes} {toSkip len offset : Nat}

theorem data_compressBlock (hne : buf ≠ []) (hle : buf.length ≤ bsize.val) :
    (compressBlock z bsize buf hne hle).data = buf := by
  unfold compressBlock
  split <;> rfl

theorem compressChunkPart_eq (hne : buf ≠ []) (hle : buf.length ≤ bsize.val) (checksum : Nat) :
    compressChunkPart z buf checksum =
      ((compressBlock z bsize buf hne hle).encode, adler32 checksum buf) := by
  unfold compressChunkPart compressBlock Block.encode
  simp only
  split <;> rfl

theorem foldl_adlerStep_fst_lt : ∀ (l : Bytes) {s : Nat × Nat}, s.1 < 65536 →
    (l.foldl adlerStep s).1 < 65536
  | [], _, hs => hs
  | _ :: l, _, _ => foldl_adlerStep_fst_lt l (Nat.lt_trans (Nat.mod_lt _ (by decide)) (by decide))

theorem foldl_adlerStep_snd_lt : ∀ (l : Bytes) {s : Nat × Nat}, s.2 < 65536 →
    (l.foldl adlerStep s).2 < 65536
  | [], _, hs => hs
  | _ :: l, _, _ => foldl_adlerStep_snd_lt l (Nat.lt_trans (Nat.mod_lt _ (by decide)) (by decide))

theorem adler32_append (sum : Nat) (a b : Bytes) :
    adler32 (adler32 sum a) b = adler32 sum (a ++ b) := by
  have hs := foldl_adlerStep_fst_lt a (s := (sum % 65536, sum / 65536)) (Nat.mod_lt _ (by decide))
  unfold adler32
  simp only [foldl_append]
  generalize a.foldl adlerStep (sum % 65536, sum / 65536) = s at hs
  have hlow : (s.2 * 65536 + s.1) % 65536 = s.1 := by omega
  have hhigh : (s.2 * 65536 + s.1) / 65536 = s.2 := by omega
  rw [hlow, hhigh]

theorem adler32_lt (content : Bytes) : adler32 adler32Init content < 2 ^ 32 := by
  have hfst := foldl_adlerStep_fst_lt content (s := (1, 0)) (by decide)
  have hsnd := foldl_adlerStep_snd_lt content (s := (1, 0)) (by decide)
  change (content.foldl adlerStep (1, 0)).2 * 65536 + (content.foldl adlerStep (1, 0)).1 < _
  omega

theorem adler32_nil (sum : Nat) : adler32 sum [] = sum := by
  simp only [adler32, foldl_nil]
  omega

/-- **圧縮の loop は内容を分けた block の列を書く。** -/
theorem exists_blocks (z : Zlib) (bsize : BlockSize) (src : Bytes) (checksum : Nat) :
    ∃ blocks : List (Block z bsize), dataAll blocks = src ∧
      compressLoop z bsize src checksum = (encodeAll blocks, adler32 checksum src) := by
  have hpos := bsize.ge
  fun_induction compressLoop z bsize src checksum with
  | case1 src checksum hle part rest ih =>
    obtain ⟨blocks, hdata, hrest⟩ := ih
    have hlen : (src.take bsize.val).length = bsize.val := by
      rw [length_take]
      omega
    have hne : src.take bsize.val ≠ [] := by
      rw [← length_pos_iff]
      omega
    have hpart : part = _ := compressChunkPart_eq hne (Nat.le_of_eq hlen) checksum
    refine ⟨compressBlock z bsize _ hne (Nat.le_of_eq hlen) :: blocks, ?_, ?_⟩
    · rw [dataAll_cons, data_compressBlock, hdata, take_append_drop]
    · rw [show rest = _ from hrest, hpart, encodeAll_cons, adler32_append, take_append_drop]
  | case2 checksum _ => exact ⟨[], rfl, by rw [adler32_nil]; rfl⟩
  | case3 src checksum hle hne =>
    have hle' : src.length ≤ bsize.val := by omega
    refine ⟨[compressBlock z bsize src hne hle'], ?_, ?_⟩
    · rw [dataAll_cons, data_compressBlock, dataAll_nil, append_nil]
    · rw [compressChunkPart_eq hne hle', encodeAll_cons, encodeAll_nil, append_nil]

/-! ## block を探す -/

theorem seekBlock_cons (fd : Bytes) (toSkip total : Nat) : seekBlock toSkip total (b.encode ++ fd) =
    if toSkip < (total + b.data.length) % 2 ^ 64 then
      (b.payload ++ fd, some ⟨b.data.length, b.payload.length, toSkip - total⟩)
    else seekBlock toSkip ((total + b.data.length) % 2 ^ 64) fd := by
  have hlt := b.length_lt
  have hle := b.payload_le
  have hout := fread_append (leBytes 8 b.data.length)
    (leBytes 8 b.payload.length ++ (b.payload ++ fd))
  have hinn := fread_append (leBytes 8 b.payload.length) (b.payload ++ fd)
  have hdata : leNat (leBytes 8 b.data.length) = b.data.length := leNat_leBytes (by omega)
  have hpayload : leNat (leBytes 8 b.payload.length) = b.payload.length := leNat_leBytes (by omega)
  rw [length_leBytes] at hout hinn
  have hencode : b.encode ++ fd =
      leBytes 8 b.data.length ++ (leBytes 8 b.payload.length ++ (b.payload ++ fd)) := by
    simp [Block.encode]
  rw [hencode, seekBlock]
  split
  · rename_i h
    cases h
  rename_i h
  rw [hout] at h
  cases h
  have hpos := b.length_pos
  simp only [hdata]
  rw [if_neg (by omega)]
  split
  · rename_i h
    cases h
  rename_i h
  cases h
  simp [hpayload]

theorem seekBlock_eof (checksum toSkip total : Nat) :
    ∃ fd, fd.length < 8 ∧ seekBlock toSkip total (writeCompressEof checksum) = (fd, none) := by
  have hlen : (writeCompressEof checksum).length = 12 := by
    rw [writeCompressEof, length_append, length_leBytes, length_leBytes]
  unfold seekBlock
  split
  · rename_i h
    cases h
  rename_i h
  have hrest := length_of_fread h
  simp only
  split
  · refine ⟨_, ?_, rfl⟩
    omega
  split
  · rename_i h'
    rw [fread_of_lt (by omega)] at h'
    cases h'
    exact ⟨[], by decide, rfl⟩
  rename_i h'
  rw [fread_of_lt (by omega)] at h'
  cases h'

theorem seekBlock_encodeAll (checksum : Nat) (hsmall : toSkip + bsize.val < 2 ^ 64) :
    ∀ (blocks : List (Block z bsize)) {total : Nat}, total ≤ toSkip →
      (∃ (b : Block z bsize) (post : List (Block z bsize)), ∃ k < b.data.length,
        b.data.drop k ++ dataAll post = (dataAll blocks).drop (toSkip - total) ∧
        seekBlock toSkip total (encodeAll blocks ++ writeCompressEof checksum) =
          (b.payload ++ (encodeAll post ++ writeCompressEof checksum),
            some ⟨b.data.length, b.payload.length, k⟩)) ∨
      ((dataAll blocks).length ≤ toSkip - total ∧ ∃ fd, fd.length < 8 ∧
        seekBlock toSkip total (encodeAll blocks ++ writeCompressEof checksum) = (fd, none))
  | [], total, _ => .inr ⟨Nat.zero_le _, seekBlock_eof checksum toSkip total⟩
  | b :: blocks, total, htotal => by
    have hle := b.data_le
    have hmod : (total + b.data.length) % 2 ^ 64 = total + b.data.length :=
      Nat.mod_eq_of_lt (by omega)
    rw [encodeAll_cons, dataAll_cons, append_assoc, seekBlock_cons, hmod]
    split
    · left
      refine ⟨b, blocks, toSkip - total, by omega, ?_, rfl⟩
      rw [drop_append_of_le_length (by omega)]
    rename_i hge
    have hsub : toSkip - total = b.data.length + (toSkip - (total + b.data.length)) := by omega
    have hdrop : (b.data ++ dataAll blocks).drop (toSkip - total) =
        (dataAll blocks).drop (toSkip - (total + b.data.length)) := by
      rw [hsub]
      simp
    rw [hdrop]
    have htotal' : total + b.data.length ≤ toSkip := by omega
    rcases seekBlock_encodeAll checksum hsmall blocks htotal' with hfound | ⟨hlen, hend⟩
    · exact .inl hfound
    right
    rw [length_append]
    exact ⟨by omega, hend⟩

/-! ## これから返す内容 -/

structure Ended (bsize : BlockSize) (chunk : CompressedChunk) : Prop where
  fd : chunk.fd.length < 8
  buf : chunk.buf = none
  dataLen : chunk.dataLen = 0
  bufOffset : chunk.bufOffset = 0
  blockSize : chunk.blockSize = bsize.val

/-- 終わりの印の前に block の列 `blocks` が残っている状態 -/
structure Ready (checksum : Nat) (blocks : List (Block z bsize)) (chunk : CompressedChunk) :
    Prop where
  fd : chunk.fd = encodeAll blocks ++ writeCompressEof checksum
  dataLen : chunk.dataLen = (chunk.buf.getD []).length
  dataLen_le : chunk.dataLen ≤ bsize.val
  bufOffset : chunk.bufOffset ≤ chunk.dataLen
  blockSize : chunk.blockSize = bsize.val

/-- 読み手がこれから返す内容は `rest` -/
inductive Remaining (z : Zlib) (bsize : BlockSize) (checksum : Nat) (chunk : CompressedChunk)
    (rest : Bytes) : Prop
  | ready (blocks : List (Block z bsize)) (ready : Ready checksum blocks chunk)
      (rest_eq : rest = (chunk.buf.getD []).drop chunk.bufOffset ++ dataAll blocks)
  | ended (ended : Ended bsize chunk) (rest_eq : rest = [])

variable {checksum : Nat} {blocks : List (Block z bsize)} {chunk : CompressedChunk}

theorem left_eq (hle : chunk.bufOffset ≤ chunk.dataLen) (hlt : chunk.dataLen < 2 ^ 32) :
    chunk.left = chunk.dataLen - chunk.bufOffset := by
  unfold left
  omega

theorem Ready.dataLen_lt (h : Ready checksum blocks chunk) : chunk.dataLen < 2 ^ 32 :=
  Nat.lt_of_le_of_lt (Nat.le_trans h.dataLen_le bsize.le) (by decide)

theorem load_eq {fd : Bytes} (hfd : chunk.fd = b.payload ++ fd)
    (hlen : chunk.dataLen = b.data.length) (hsize : chunk.blockSize = bsize.val) :
    chunk.load z b.payload.length = ({ chunk with
        fd := fd
        buf := some b.data
        bufLen := b.data.length
        checksum := adler32 chunk.checksum b.data }, 1) := by
  have hpos : 0 < b.payload.length := length_pos_iff.mpr b.payload_ne_nil
  have hdata := b.data_le
  have hpayload := b.payload_le
  rw [load, if_neg (by omega)]
  simp only [hfd, hlen, fread_append]
  split
  · rename_i heq
    rw [b.raw heq]
  obtain ⟨hok, hpad⟩ := b.inflates (by omega)
  rw [if_pos hok, hpad]

/-- `toSkip` 進んだ所の block が buffer に入るか、終わりに着く -/
theorem fillDecompressedBuffer_spec (hsmall : toSkip + bsize.val < 2 ^ 64)
    (hfd : chunk.fd = encodeAll blocks ++ writeCompressEof checksum)
    (hsize : chunk.blockSize = bsize.val) :
    (∃ chunk' post, chunk.fillDecompressedBuffer z toSkip = (chunk', 1) ∧
      Ready checksum post chunk' ∧ chunk'.bufOffset < chunk'.dataLen ∧
      (dataAll blocks).drop toSkip = (chunk'.buf.getD []).drop chunk'.bufOffset ++
        dataAll (post : List (Block z bsize))) ∨
    ∃ chunk', chunk.fillDecompressedBuffer z toSkip = (chunk', 0) ∧ Ended bsize chunk' ∧
      (dataAll blocks).length ≤ toSkip := by
  unfold fillDecompressedBuffer
  simp only [hfd]
  rcases seekBlock_encodeAll checksum hsmall blocks (Nat.zero_le toSkip) with
    ⟨b, post, k, hk, hdrop, hseek⟩ | ⟨hlen, fd, hshort, hseek⟩
  · left
    have hlt := b.length_lt
    have hmod : b.data.length % 2 ^ 32 = b.data.length := Nat.mod_eq_of_lt hlt
    have hkmod : k % 2 ^ 32 = k := Nat.mod_eq_of_lt (by omega)
    simp only [hseek, hmod, hkmod]
    refine ⟨_, post, load_eq b rfl rfl hsize, ⟨rfl, rfl, b.data_le, Nat.le_of_lt hk, hsize⟩, hk, ?_⟩
    rw [getD_some, hdrop, Nat.sub_zero]
  · right
    simp only [hseek]
    exact ⟨_, rfl, ⟨hshort, rfl, rfl, rfl, hsize⟩, hlen⟩

theorem Ended.fill (h : Ended bsize chunk) (toSkip : Nat) :
    ∃ chunk', chunk.fillDecompressedBuffer z toSkip = (chunk', 0) ∧ Ended bsize chunk' := by
  have hseek : seekBlock toSkip 0 chunk.fd = ([], none) := by
    rw [seekBlock]
    split
    · rename_i heq
      rw [fread_of_lt h.fd] at heq
      cases heq
      rfl
    rename_i heq
    rw [fread_of_lt h.fd] at heq
    cases heq
  unfold fillDecompressedBuffer
  simp only [hseek]
  exact ⟨_, rfl, Nat.zero_lt_succ _, rfl, rfl, rfl, h.blockSize⟩

theorem Ready.serve (h : Ready checksum blocks chunk) (hlt : chunk.bufOffset < chunk.dataLen)
    (hrest : rest = (chunk.buf.getD []).drop chunk.bufOffset ++ dataAll blocks) (hlen : 0 < len) :
    ∃ chunk' d, chunk.serve len = (chunk', some d) ∧ d <+: rest.take len ∧ d ≠ [] ∧
      Remaining z bsize checksum chunk' (rest.drop d.length) := by
  obtain ⟨b, hb⟩ : ∃ b, chunk.buf = some b := by
    refine ne_none_iff_exists'.mp fun hnone => ?_
    have := h.dataLen
    rw [hnone] at this
    simp only [getD_none, length_nil] at this
    omega
  have hblen : chunk.dataLen = b.length := by rw [h.dataLen, hb, getD_some]
  rw [hb, getD_some] at hrest
  have hleft := left_eq h.bufOffset h.dataLen_lt
  have hdlen : ((b.drop chunk.bufOffset).take (min chunk.left len)).length =
      min chunk.left len := by
    rw [length_take, length_drop]
    omega
  have hserve : chunk.serve len = ({ chunk with
          read := (chunk.read + min chunk.left len) % 2 ^ 32
          bufOffset := chunk.bufOffset + min chunk.left len },
        some ((b.drop chunk.bufOffset).take (min chunk.left len))) := by
    rw [CompressedChunk.serve, if_neg (by omega), hb]
  refine ⟨_, _, hserve, ?_, ?_, .ready blocks ⟨h.fd, h.dataLen, h.dataLen_le, ?_, h.blockSize⟩ ?_⟩
  · have hle : min chunk.left len ≤ (b.drop chunk.bufOffset).length := by
      rw [length_drop]
      omega
    have htake : rest.take (min chunk.left len) =
        (b.drop chunk.bufOffset).take (min chunk.left len) := by
      rw [hrest, take_append_of_le_length hle]
    rw [← htake]
    exact take_prefix_take_left (Nat.min_le_right _ _)
  · rw [← length_pos_iff]
    omega
  · change chunk.bufOffset + min chunk.left len ≤ chunk.dataLen
    omega
  · rw [hdlen, hrest, drop_append_of_le_length (by rw [length_drop]; omega)]
    simp [hb]

theorem Ended.serve (h : Ended bsize chunk) (len : Nat) : chunk.serve len = (chunk, some []) := by
  rw [CompressedChunk.serve, if_pos h.dataLen]

/-- `offset` だけ進めた chunk -/
def advance (chunk : CompressedChunk) (offset : Nat) : CompressedChunk :=
  { chunk with bufOffset := min chunk.dataLen (chunk.bufOffset + offset) }

theorem getData_eq (hle : chunk.bufOffset ≤ chunk.dataLen)
    (hoff : chunk.bufOffset + offset < 2 ^ 64) :
    chunk.getData z offset len =
      if chunk.buf.isNone ∨ chunk.dataLen ≤ chunk.bufOffset + offset then
        let filled := (advance chunk offset).fillDecompressedBuffer z
          (if 0 < offset then (offset + 2 ^ 64 - chunk.left) % 2 ^ 64 else 0)
        if filled.2 < 0 then (filled.1, none) else filled.1.serve len
      else (advance chunk offset).serve len := by
  have hmoved : (if 0 < offset then
      { chunk with bufOffset := min chunk.dataLen ((chunk.bufOffset + offset) % 2 ^ 64) }
      else chunk) = advance chunk offset := by
    split
    · rw [Nat.mod_eq_of_lt hoff]
      rfl
    · have hzero : offset = 0 := by omega
      rw [hzero, advance, Nat.add_zero, Nat.min_eq_right hle]
  have hcond : ((advance chunk offset).buf.isNone ∨ (advance chunk offset).dataLen = 0 ∨
      (advance chunk offset).dataLen ≤ (advance chunk offset).bufOffset) ↔
      (chunk.buf.isNone ∨ chunk.dataLen ≤ chunk.bufOffset + offset) := by
    simp only [advance]
    refine or_congr_right ?_
    omega
  unfold getData
  simp only [hmoved, hcond]

/-- **`get_data` の 1 回。** 今の位置から `offset` 進んだ所の空でない部分を返す。何も返さないのは内容が無いとき。 -/
theorem Remaining.getData (h : Remaining z bsize checksum chunk rest)
    (hoff : offset + bsize.val < 2 ^ 64) (hlen : 0 < len) :
    ∃ chunk' d, chunk.getData z offset len = (chunk', some d) ∧ d <+: (rest.drop offset).take len ∧
      (d = [] ↔ rest.length ≤ offset) ∧
      Remaining z bsize checksum chunk' (rest.drop (offset + d.length)) ∧
      (d = [] → Ended bsize chunk') := by
  cases h with
  | ended hended hrest =>
    have hmoved : Ended bsize (advance chunk offset) := by
      refine ⟨hended.fd, hended.buf, hended.dataLen, ?_, hended.blockSize⟩
      rw [advance, hended.dataLen, Nat.zero_min]
    obtain ⟨chunk', hfill, hended'⟩ := hmoved.fill (z := z)
      (if 0 < offset then (offset + 2 ^ 64 - chunk.left) % 2 ^ 64 else 0)
    have hbuf := hended.buf
    have hzero := hended.bufOffset
    refine ⟨chunk', [], ?_, nil_prefix, ?_, .ended hended' ?_, fun _ => hended'⟩
    · rw [getData_eq (by omega) (by omega), if_pos (.inl (by rw [hbuf]; rfl))]
      simp only [hfill]
      exact hended'.serve len
    · simp [hrest]
    · rw [hrest, drop_nil]
  | ready blocks hready hrest =>
    have hle := hready.bufOffset
    have hsmall := hready.dataLen_le
    have hlt := hready.dataLen_lt
    have hlength : rest.length = chunk.dataLen - chunk.bufOffset + (dataAll blocks).length := by
      rw [hrest, length_append, length_drop, ← hready.dataLen]
    rw [getData_eq hle (by omega)]
    by_cases hin : chunk.bufOffset + offset < chunk.dataLen
    · -- 求める所は buffer の中にある
      have hbuf : chunk.buf.isNone = false := by
        cases hb : chunk.buf with
        | some _ => rfl
        | none =>
          have := hready.dataLen
          rw [hb] at this
          simp only [getD_none, length_nil] at this
          omega
      have hmin : (advance chunk offset).bufOffset = chunk.bufOffset + offset :=
        Nat.min_eq_right (Nat.le_of_lt hin)
      have hready' : Ready checksum blocks (advance chunk offset) :=
        ⟨hready.fd, hready.dataLen, hsmall, Nat.min_le_left _ _, hready.blockSize⟩
      have hrest' : rest.drop offset =
          ((advance chunk offset).buf.getD []).drop (advance chunk offset).bufOffset ++
            dataAll blocks := by
        rw [hrest, drop_append_of_le_length
          (by rw [length_drop, ← hready.dataLen]; omega), drop_drop, hmin]
        rfl
      obtain ⟨chunk', d, hserve, hpre, hne, hrem⟩ :=
        hready'.serve (by rw [hmin]; exact hin) hrest' hlen
      refine ⟨chunk', d, ?_, hpre, ?_, ?_, fun hnil => absurd hnil hne⟩
      · rw [if_neg (by simp [hbuf]; omega), hserve]
      · exact iff_of_false hne (by omega)
      · rw [← drop_drop]
        exact hrem
    · -- buffer の残りを飛ばして、先の block を読む
      have hleft := left_eq hle hlt
      have hskip : (if 0 < offset then (offset + 2 ^ 64 - chunk.left) % 2 ^ 64 else 0) =
          offset - (chunk.dataLen - chunk.bufOffset) := by
        split <;> omega
      have hrest' : rest.drop offset =
          (dataAll blocks).drop (offset - (chunk.dataLen - chunk.bufOffset)) := by
        rw [hrest, drop_append, length_drop, ← hready.dataLen,
          drop_of_length_le (by rw [length_drop, ← hready.dataLen]; omega),
          nil_append]
      rw [if_pos (.inr (by omega)), hskip]
      have hfd : (advance chunk offset).fd = encodeAll blocks ++ writeCompressEof checksum :=
        hready.fd
      have hsize : (advance chunk offset).blockSize = bsize.val := hready.blockSize
      have hskipped : offset - (chunk.dataLen - chunk.bufOffset) + bsize.val < 2 ^ 64 := by omega
      rcases fillDecompressedBuffer_spec hskipped hfd hsize with
        ⟨chunk1, post, hfill, hready1, hlt1, hdrop⟩ | ⟨chunk1, hfill, hended, hend⟩
      · obtain ⟨chunk', d, hserve, hpre, hne, hrem⟩ := hready1.serve hlt1 (hrest'.trans hdrop) hlen
        have hpos : 0 < (rest.drop offset).length := by
          rw [hrest', hdrop, length_append, length_drop, ← hready1.dataLen]
          omega
        rw [length_drop] at hpos
        refine ⟨chunk', d, ?_, hpre, ?_, ?_, fun hnil => absurd hnil hne⟩
        · simp only [hfill]
          exact hserve
        · exact iff_of_false hne (by omega)
        · rw [← drop_drop]
          exact hrem
      · refine ⟨chunk1, [], ?_, nil_prefix, ?_, .ended hended ?_, fun _ => hended⟩
        · simp only [hfill]
          exact hended.serve len
        · exact iff_of_true rfl (by omega)
        rw [drop_of_length_le]
        omega

end

/-! ## 読み出しの列 -/

/-- 位置 `p` から始まる、読み出しの列の結果 -/
def Slices (content : Bytes) : Nat → List (Nat × Nat) → List (Option Bytes) → Prop
  | _, [], [] => True
  | p, (offset, len) :: reads, r :: results =>
    ∃ d, r = some d ∧ d <+: (content.drop (p + offset)).take len ∧
      (d = [] ↔ content.length ≤ p + offset) ∧
      Slices content (p + offset + d.length) reads results
  | _, _, _ => False

variable {bsize : BlockSize}

theorem slices_readAll {z : Zlib} {checksum : Nat} {content : Bytes} :
    ∀ {reads : List (Nat × Nat)} {chunk : CompressedChunk} {p : Nat},
      (∀ r ∈ reads, r.1 + bsize.val < 2 ^ 64 ∧ 0 < r.2) →
      Remaining z bsize checksum chunk (content.drop p) →
      Slices content p reads (readAll z chunk reads)
  | [], _, _, _, _ => trivial
  | (offset, len) :: reads, chunk, p, hreads, hrem => by
    obtain ⟨hoff, hlen⟩ := hreads _ mem_cons_self
    obtain ⟨chunk', d, hget, hpre, hnil, hrem', -⟩ := hrem.getData hoff hlen
    rw [drop_drop] at hpre hrem'
    refine ⟨d, ?_, hpre, ?_, ?_⟩
    · rw [hget]
    · rw [hnil, length_drop]
      omega
    rw [hget]
    rw [← Nat.add_assoc] at hrem'
    exact slices_readAll (fun r hr => hreads r (mem_cons_of_mem _ hr)) hrem'

/-! ## file -/

/-- block の列と、終わりの印の checksum からなる file -/
structure ZlibFile (z : Zlib) where
  bsize : BlockSize
  blocks : List (Block z bsize)
  checksum : Nat
  checksum_lt : checksum < 2 ^ 64

def ZlibFile.data {z : Zlib} (f : ZlibFile z) : Bytes := dataAll f.blocks

def ZlibFile.bytes {z : Zlib} (f : ZlibFile z) : Bytes :=
  writeCompressHeader f.bsize.val ++ (encodeAll f.blocks ++ writeCompressEof f.checksum)

theorem bytes_compressFile (z : Zlib) (bsize : BlockSize) (content : Bytes) :
    ∃ f : ZlibFile z, f.bytes = compressFile z bsize content ∧ f.bsize = bsize ∧ f.data = content ∧
      f.checksum = adler32 adler32Init content := by
  obtain ⟨blocks, hdata, hloop⟩ := exists_blocks z bsize content adler32Init
  have hlt := adler32_lt content
  refine ⟨⟨bsize, blocks, adler32 adler32Init content, by omega⟩, ?_, rfl, hdata, rfl⟩
  rw [ZlibFile.bytes, compressFile, hloop]

theorem remaining_init {z : Zlib} (f : ZlibFile z) :
    ∃ chunk, compressedChunkInit f.bytes = .ok chunk ∧
      Remaining z f.bsize f.checksum chunk f.data := by
  have hge := f.bsize.ge
  have hle := f.bsize.le
  have hlen : (writeCompressHeader f.bsize.val).length = 12 := by
    rfl
  have hread := fread_append (writeCompressHeader f.bsize.val)
    (encodeAll f.blocks ++ writeCompressEof f.checksum)
  rw [hlen] at hread
  have hmagic : (writeCompressHeader f.bsize.val).take 8 = magic := take_left' rfl
  have hsize : leNat ((writeCompressHeader f.bsize.val).drop 8) = f.bsize.val := by
    have hdrop : (writeCompressHeader f.bsize.val).drop 8 = leBytes 4 f.bsize.val := drop_left' rfl
    rw [hdrop, leNat_leBytes (by omega)]
  refine ⟨⟨encodeAll f.blocks ++ writeCompressEof f.checksum, none, 0, 0, 0, 0, f.bsize.val,
    adler32Init⟩, ?_, ?_⟩
  · rw [compressedChunkInit, ZlibFile.bytes, hread]
    simp only [hmagic, hsize]
    rw [if_neg (by simp), if_neg (by omega)]
  · exact .ready f.blocks ⟨rfl, rfl, Nat.zero_le _, Nat.le_refl _, rfl⟩ rfl

/-- **読み出しの列は内容を cursor のとおりに返す。** -/
theorem readAll_slices (z : Zlib) (bsize : BlockSize) (content : Bytes) (reads : List (Nat × Nat))
    (hreads : ∀ r ∈ reads, r.1 + bsize.val < 2 ^ 64 ∧ 0 < r.2) :
    ∃ chunk, compressedChunkInit (compressFile z bsize content) = .ok chunk ∧
      Slices content 0 reads (readAll z chunk reads) := by
  obtain ⟨f, hbytes, rfl, rfl, -⟩ := bytes_compressFile z bsize content
  obtain ⟨chunk, hinit, hrem⟩ := remaining_init f
  rw [← hbytes]
  exact ⟨chunk, hinit, slices_readAll hreads hrem⟩

def plainZlib : Zlib where
  compress := fun b => 0x78 :: b
  uncompress := fun n s => (decide (s.tail.length ≤ n), s.tail.take n)
  compress_ne_nil := fun _ => cons_ne_nil _ _
  length_uncompress_le := fun n s => by
    rw [length_take]
    omega
  uncompress_compress := fun b n h => by
    rw [tail_cons, take_of_length_le h, decide_eq_true h]

def smallBlock : BlockSize := ⟨1024, by decide, by decide⟩

/-- 先頭の 1 byte を読み、1 byte 飛ばして読む -/
theorem readAll_slices_skip : (∀ r ∈ [(0, 1), (1, 5)], r.1 + smallBlock.val < 2 ^ 64 ∧ 0 < r.2) ∧
    ∃ chunk, compressedChunkInit (compressFile plainZlib smallBlock [65, 66, 67]) = .ok chunk ∧
      Slices [65, 66, 67] 0 [(0, 1), (1, 5)] (readAll plainZlib chunk [(0, 1), (1, 5)]) :=
  ⟨by decide, readAll_slices plainZlib smallBlock [65, 66, 67] [(0, 1), (1, 5)] (by decide)⟩

/-- `offset` を内容の先頭から数えた、読み出しの列の結果 -/
def SlicesAt (content : Bytes) : List (Nat × Nat) → List (Option Bytes) → Prop
  | [], [] => True
  | (offset, len) :: reads, r :: results =>
    (∃ d, r = some d ∧ d <+: (content.drop offset).take len ∧ (d = [] ↔ content.length ≤ offset)) ∧
      SlicesAt content reads results
  | _, _ => False

/-- **`offset` は先頭からは数えない。** 2 度目は次の byte が返る。 -/
theorem second_read_moves : ¬ ∃ chunk,
    compressedChunkInit (compressFile plainZlib smallBlock [65, 66]) = .ok chunk ∧
      SlicesAt [65, 66] [(0, 1), (0, 1)] (readAll plainZlib chunk [(0, 1), (0, 1)]) := by
  rintro ⟨chunk, hinit, hreads⟩
  have hresults : (compressedChunkInit (compressFile plainZlib smallBlock [65, 66])).toOption.map
      (fun chunk => readAll plainZlib chunk [(0, 1), (0, 1)]) = some [some [65], some [66]] := by
    decide +kernel
  rw [hinit] at hresults
  simp only [Except.toOption, map_some, some.injEq] at hresults
  rw [hresults] at hreads
  obtain ⟨-, ⟨d, hd, hpre, -⟩, -⟩ := hreads
  cases hd
  exact absurd hpre (by decide)

/-! ## 検査 -/

theorem readThrough_ended {z : Zlib} {checksum : Nat} :
    ∀ {sizes : List Nat} {chunk : CompressedChunk} {rest : Bytes},
      Remaining z bsize checksum chunk rest → (∀ n ∈ sizes, 0 < n) → rest.length < sizes.length →
      ∃ chunk', readThrough z chunk sizes = some chunk' ∧ Ended bsize chunk'
  | [], _, _, _, _, hlong => absurd hlong (Nat.not_lt_zero _)
  | n :: sizes, chunk, rest, hrem, hpos, hlong => by
    have hle := bsize.le
    have hoff : 0 + bsize.val < 2 ^ 64 := by omega
    obtain ⟨chunk', d, hget, -, hnil, hrem', hended⟩ := hrem.getData hoff (hpos n mem_cons_self)
    rw [readThrough, hget]
    simp only
    split
    · rename_i hnil
      exact ⟨chunk', rfl, hended hnil⟩
    rename_i hne
    refine readThrough_ended hrem' (fun m hm => hpos m (mem_cons_of_mem _ hm)) ?_
    have hd := length_pos_iff.mpr hne
    have hrest := mt hnil.mpr hne
    rw [length_drop]
    rw [length_cons] at hlong
    omega

theorem Ended.checkIntegrity {chunk : CompressedChunk} (h : Ended bsize chunk) (beyond : Bytes) :
    chunk.checkIntegrity beyond = false := by
  rw [CompressedChunk.checkIntegrity, fread_of_lt h.fd]

/-- 最後まで読んだ後の検査は、書かれた checksum が内容のもののときだけ成功する -/
def IntegrityRight {z : Zlib} (f : ZlibFile z) : Prop :=
  ∀ sizes : List Nat, (∀ n ∈ sizes, 0 < n) → f.data.length < sizes.length →
    ∃ chunk₀ chunk, compressedChunkInit f.bytes = .ok chunk₀ ∧
      readThrough z chunk₀ sizes = some chunk ∧
      ∀ beyond, chunk.checkIntegrity beyond = decide (f.checksum = adler32 adler32Init f.data)

theorem not_integrityRight {z : Zlib} {f : ZlibFile z}
    (heq : f.checksum = adler32 adler32Init f.data) : ¬ IntegrityRight f := by
  intro h
  have hpos : ∀ n ∈ List.replicate (f.data.length + 1) 1, 0 < n := by simp
  have hlong : f.data.length < (List.replicate (f.data.length + 1) 1).length := by simp
  obtain ⟨chunk0, hinit, hrem⟩ := remaining_init f
  obtain ⟨chunk, hread, hended⟩ := readThrough_ended hrem hpos hlong
  obtain ⟨chunk1, chunk', hinit', hread', hcheck⟩ := h _ hpos hlong
  rw [hinit, Except.ok.injEq] at hinit'
  subst hinit'
  rw [hread, some.injEq] at hread'
  subst hread'
  have hfalse := hcheck []
  rw [hended.checkIntegrity, decide_eq_true heq] at hfalse
  cases hfalse

/-- **検査が正しいのは書かれた checksum が内容のものでないときに限る。** -/
theorem integrity_iff {z : Zlib} (f : ZlibFile z) :
    IntegrityRight f ↔ f.checksum ≠ adler32 adler32Init f.data := by
  refine ⟨fun h heq => not_integrityRight heq h, fun hne sizes hpos hlong => ?_⟩
  obtain ⟨chunk₀, hinit, hrem⟩ := remaining_init f
  obtain ⟨chunk, hread, hended⟩ := readThrough_ended hrem hpos hlong
  refine ⟨chunk₀, chunk, hinit, hread, fun beyond => ?_⟩
  rw [hended.checkIntegrity, decide_eq_false hne]

def oneByteFile : ZlibFile plainZlib where
  bsize := smallBlock
  blocks := [compressBlock plainZlib smallBlock [65] (by decide) (by decide)]
  checksum := adler32 adler32Init [65]
  checksum_lt := by decide

/-- **圧縮した file を最後まで読むと、検査は失敗する。** -/
theorem check_fails_at_end :
    oneByteFile.bytes = compressFile plainZlib smallBlock [65] ∧ oneByteFile.data = [65] ∧
      ¬ IntegrityRight oneByteFile := by
  have hdata : oneByteFile.data = [65] := by decide +kernel
  refine ⟨by decide +kernel, hdata, not_integrityRight ?_⟩
  rfl

end Redcurrant.Rawx
