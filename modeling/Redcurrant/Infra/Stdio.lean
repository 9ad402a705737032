import Redcurrant.Infra.Cstring

/-!
# file の読み書きと、整数の byte 列

整数は little endian で書かれる。読む file はまだ読んでいない byte の列で表す。
-/

namespace Redcurrant.Infra

open List

/-! ## little endian -/

/-- `n` の下位の `w` byte -/
def leBytes : Nat → Nat → Bytes
  | 0, _ => []
  | w + 1, n => UInt8.ofNat n :: leBytes w (n / 256)

/-- byte の列が表す数 -/
def leNat : Bytes → Nat
  | [] => 0
  | b :: l => b.toNat + 256 * leNat l

@[simp] theorem length_leBytes : ∀ w n, (leBytes w n).length = w
  | 0, _ => rfl
  | w + 1, n => by rw [leBytes, length_cons, length_leBytes w]

theorem leNat_leBytes : ∀ {w n : Nat}, n < 256 ^ w → leNat (leBytes w n) = n
  | 0, n, h => by
    rw [leBytes, leNat]
    omega
  | w + 1, n, h => by
    have hdiv : n / 256 < 256 ^ w := by
      rw [Nat.div_lt_iff_lt_mul (by decide)]
      exact h
    rw [leBytes, leNat, leNat_leBytes hdiv, UInt8.toNat_ofNat']
    omega

/-! ## 読み出し -/

/-- `fread(buf, n, 1, fd)` -/
def fread (n : Nat) (fd : Bytes) : Option Bytes × Bytes :=
  if fd.length < n then (none, []) else (some (fd.take n), fd.drop n)

theorem fread_append (l fd : Bytes) : fread l.length (l ++ fd) = (some l, fd) := by
  rw [fread, if_neg (by simp), take_left, drop_left]

theorem fread_of_lt {n : Nat} {fd : Bytes} (h : fd.length < n) : fread n fd = (none, []) :=
  if_pos h

theorem length_of_fread {n : Nat} {fd fd' l : Bytes} (h : fread n fd = (some l, fd')) :
    fd'.length + n = fd.length := by
  rw [fread] at h
  split at h
  · cases h
  cases h
  rw [length_drop]
  omega

/-! ## 書き込み -/

def padTo (n : Nat) (b : Bytes) : Bytes := b ++ List.replicate (n - b.length) 0

/-- 書き込みのために開いた file -/
structure SeekFile where
  data : Bytes
  pos : Nat
  deriving DecidableEq

/-- `write`。今の位置から書き、位置を進める。 -/
def SeekFile.write (f : SeekFile) (b : Bytes) : SeekFile :=
  if b = [] then f
  else ⟨(padTo f.pos f.data).take f.pos ++ (b ++ f.data.drop (f.pos + b.length)), f.pos + b.length⟩

/-- `ftruncate` の後に `lseek` で同じ所へ行く -/
def SeekFile.rewind (f : SeekFile) (n : Nat) : SeekFile := ⟨(padTo n f.data).take n, n⟩

theorem SeekFile.write_end (d b : Bytes) :
    SeekFile.write ⟨d, d.length⟩ b = ⟨d ++ b, (d ++ b).length⟩ := by
  unfold SeekFile.write
  split
  · rename_i hb
    rw [hb, append_nil]
  · rw [padTo, Nat.sub_self, replicate_zero, append_nil, take_length,
      drop_of_length_le (Nat.le_add_right _ _), append_nil, length_append]

theorem SeekFile.rewind_append (d b : Bytes) (p : Nat) :
    SeekFile.rewind ⟨d ++ b, p⟩ d.length = ⟨d, d.length⟩ := by
  simp [SeekFile.rewind, padTo]

theorem mem_padTo {n : Nat} {b : Bytes} {x : UInt8} (h : x ∈ padTo n b) : x ∈ b ∨ x = 0 := by
  rw [padTo, mem_append, mem_replicate] at h
  exact h.imp id And.right

theorem SeekFile.write_zeros {f : SeekFile} {b : Bytes} (hf : ∀ x ∈ f.data, x = 0)
    (hb : ∀ x ∈ b, x = 0) : ∀ x ∈ (f.write b).data, x = 0 := by
  intro x hx
  unfold SeekFile.write at hx
  split at hx
  · exact hf x hx
  simp only [mem_append] at hx
  rcases hx with hx | hx | hx
  · exact (mem_padTo (mem_of_mem_take hx)).elim (hf x) id
  · exact hb x hx
  · exact hf x (mem_of_mem_drop hx)

theorem SeekFile.rewind_zeros {f : SeekFile} (hf : ∀ x ∈ f.data, x = 0) (n : Nat) :
    ∀ x ∈ (f.rewind n).data, x = 0 :=
  fun x hx => (mem_padTo (mem_of_mem_take hx)).elim (hf x) id

end Redcurrant.Infra
