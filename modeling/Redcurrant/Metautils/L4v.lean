import Redcurrant.Infra.Stdio

/-!
# 長さの付いた message

gridd の message は 4 byte の big endian の長さと中身からなる（`l4vFrame`）。
-/

namespace Redcurrant.Metautils

open Infra List

def l4vGetSize (s : Bytes) : Nat := leNat (s.take 4).reverse

def l4vExtract (s : Bytes) : Option Bytes :=
  if s.length < 4 then none
  else if s.length - 4 < l4vGetSize s then none
  else some ((s.drop 4).take (l4vGetSize s))

/-- `l4v_prepend_size` で長さを書いた message -/
def l4vFrame (payload : Bytes) : Bytes := (leBytes 4 payload.length).reverse ++ payload

@[simp] theorem length_l4vFrame (payload : Bytes) : (l4vFrame payload).length = 4 + payload.length := by
  rw [l4vFrame, length_append, length_reverse, length_leBytes]

theorem l4vGetSize_append {s : Bytes} (h : 4 ≤ s.length) (t : Bytes) :
    l4vGetSize (s ++ t) = l4vGetSize s := by
  rw [l4vGetSize, l4vGetSize, take_append_of_le_length h]

theorem l4vGetSize_of_append {s t payload : Bytes} (hs : 4 ≤ s.length)
    (hlt : payload.length < 256 ^ 4) (h : s ++ t = l4vFrame payload) :
    l4vGetSize s = payload.length := by
  rw [← l4vGetSize_append hs t, h, l4vGetSize, l4vFrame,
    take_left' (by rw [length_reverse, length_leBytes]), reverse_reverse,
    leNat_leBytes hlt]

theorem l4vExtract_l4vFrame {payload : Bytes} (hlt : payload.length < 256 ^ 4) :
    l4vExtract (l4vFrame payload) = some payload := by
  have hlen := length_l4vFrame payload
  have hsize := l4vGetSize_of_append (t := []) (by omega) hlt (append_nil _)
  rw [l4vExtract, if_neg (by omega), hsize, if_neg (by omega), l4vFrame,
    drop_left' (by rw [length_reverse, length_leBytes]), take_length]

end Redcurrant.Metautils
