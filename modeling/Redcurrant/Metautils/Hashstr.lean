import Mathlib.Data.List.Basic
import Redcurrant.Infra.Cstring

/-!
# `hashstr_t` とその順序

`metautils/lib/utils_hashstr.c` と `metautils_bits.h`。比較はまず hash 値、次に文字列で行う。
-/

namespace Redcurrant.Metautils

open Infra

/-- `(guint32)(b[i])`。`gchar` は符号付きなので、上位 bit が拡張される。 -/
def signExtend (b : UInt8) : UInt32 := if b < 128 then b.toUInt32 else b.toUInt32 ||| 0xffffff00

def djbHashBuf3 (h : UInt32) (b : Bytes) : UInt32 :=
  b.foldl (fun h c => ((h <<< 5) + h) ^^^ c.toUInt32) h

def djbHashBuf (b : Bytes) : UInt32 := djbHashBuf3 5381 b

def djbHashStr (s : Bytes) : UInt32 := s.foldl (fun h c => ((h <<< 5) + h) ^^^ signExtend c) 5381

/-- `hashstr_t`。`s` は `s0` を C の文字列として読んだもの。 -/
structure Hashstr where
  h : UInt32
  s : Bytes
  deriving DecidableEq

namespace Hashstr

/-- `hashstr_create` -/
def create (s : Bytes) : Hashstr := ⟨djbHashStr s, s⟩

/-- `hashstr_create_len`。hash は NUL の先の byte も読む。 -/
def createLen (s : Bytes) : Hashstr := ⟨djbHashBuf s, cstr s⟩

/-- `hashstr_printf("%.*s", len, buf)`。書式は NUL で止まる。 -/
def printfLen (s : Bytes) : Hashstr := createLen (cstr s)

/-- `hashstr_cmp` -/
def cmp (a b : Hashstr) : Ordering := strcmp a.s b.s

/-- `hashstr_quick_cmp` -/
def quickCmp (a b : Hashstr) : Ordering := (compare a.h b.h).then (cmp a b)

end Hashstr

/-! ## hash 値 -/

open Hashstr

theorem djbHashStr_eq_djbHashBuf {s : Bytes} (h : ∀ b ∈ s, b < 128) :
    djbHashStr s = djbHashBuf s := by
  refine List.foldl_ext _ _ _ fun acc b hb => ?_
  rw [signExtend, if_pos (h b hb)]

theorem Hashstr.printfLen_eq_create {s : Bytes} (hz : 0 ∉ s) (h : ∀ b ∈ s, b < 128) :
    printfLen s = create s := by
  rw [printfLen, createLen, create, cstr_cstr, cstr_eq_self hz, djbHashStr_eq_djbHashBuf h]

theorem Hashstr.create_inj {a b : Bytes} (h : create a = create b) : a = b := congrArg Hashstr.s h

/-! ## 順序 -/

instance : Std.TransCmp Hashstr.quickCmp :=
  inferInstanceAs (Std.TransCmp (compareLex (compareOn Hashstr.h) (compareOn Hashstr.s)))

theorem Hashstr.quickCmp_eq_eq {a b : Hashstr} : quickCmp a b = .eq ↔ a = b := by
  obtain ⟨ha, sa⟩ := a
  obtain ⟨hb, sb⟩ := b
  simp [quickCmp, cmp, strcmp]

instance : Std.LawfulEqCmp Hashstr.quickCmp where
  eq_of_compare := Hashstr.quickCmp_eq_eq.mp

/-! ## key を作る関数 -/

/-- `hashstr_equal`。`la` と `lb` は `hl.l`。 -/
def Hashstr.equal (a b : Hashstr) (la lb : Nat) : Bool :=
  a.h == b.h && la == lb && Hashstr.cmp a b == .eq

/-- `hashstr_t` を作る関数。`HASHSTR_ALLOCA` は空の文字列では stack の内容を残す。 -/
inductive HashstrMaker
  | create
  | createLen
  | printf
  | dup (maker : HashstrMaker)
  | alloca (stack : Bytes)
  | allocaLen

def HashstrMaker.make (s : Bytes) : HashstrMaker → Hashstr
  | .create => .create s
  | .createLen | .allocaLen => .createLen s
  | .printf => .printfLen s
  | .dup maker => maker.make s
  | .alloca stack => ⟨djbHashStr s, if s = [] then cstr stack else s⟩

/-- どの key でも、文字列は同じときだけ等しい -/
def SameKeys (s t : Bytes) : Prop := ∀ m m' : HashstrMaker,
  (Hashstr.quickCmp (m.make s) (m'.make t) = .eq ↔ s = t) ∧
    (Hashstr.equal (m.make s) (m'.make t) s.length t.length = true ↔ s = t)

variable {s t : Bytes}

/-- key の hash は 2 通りで、空でなければ文字列はそのまま -/
theorem HashstrMaker.make_cases (hz : 0 ∉ s) (hs : s ≠ []) (m : HashstrMaker) :
    m.make s = ⟨djbHashStr s, s⟩ ∨ m.make s = ⟨djbHashBuf s, s⟩ := by
  induction m with
  | create => exact .inl rfl
  | createLen | allocaLen => exact .inr (by rw [make, Hashstr.createLen, cstr_eq_self hz])
  | printf =>
    exact .inr (by rw [make, Hashstr.printfLen, Hashstr.createLen, cstr_cstr, cstr_eq_self hz])
  | dup m ih => exact ih
  | alloca stack => exact .inl (by rw [make, if_neg hs])

theorem Hashstr.equal_iff {a b : Hashstr} {la lb : Nat} :
    equal a b la lb = true ↔ a = b ∧ la = lb := by
  obtain ⟨ha, sa⟩ := a
  obtain ⟨hb, sb⟩ := b
  simp only [equal, cmp, strcmp, Bool.and_eq_true, beq_iff_eq,
    Std.LawfulEqCmp.compare_eq_iff_eq, mk.injEq]
  exact ⟨fun ⟨⟨h, l⟩, s⟩ => ⟨⟨h, s⟩, l⟩, fun ⟨⟨h, s⟩, l⟩ => ⟨⟨h, l⟩, s⟩⟩

theorem sameKeys_iff : SameKeys s t ↔ ∀ m m' : HashstrMaker, m.make s = m'.make t ↔ s = t := by
  refine forall₂_congr fun m m' => ?_
  rw [quickCmp_eq_eq, equal_iff]
  refine ⟨fun h => h.1, fun h => ⟨h, ?_⟩⟩
  rw [h]
  exact ⟨fun h => h.1, fun h => ⟨h, h ▸ rfl⟩⟩

/-- hash が空の文字列のものと違う -/
def HashesApart (t : Bytes) : Prop := djbHashStr t ≠ 5381 ∧ djbHashBuf t ≠ 5381

theorem make_nil_ne_iff (hz : 0 ∉ t) (ht : t ≠ []) :
    (∀ m m' : HashstrMaker, m.make [] ≠ m'.make t) ↔ HashesApart t := by
  constructor
  · intro h
    -- stack に残った内容がちょうど `t` であるとき
    have hstack : ∀ m' : HashstrMaker, ⟨5381, t⟩ ≠ m'.make t := fun m' => by
      simpa [HashstrMaker.make, cstr_eq_self hz, djbHashStr] using h (.alloca t) m'
    refine ⟨fun heq => hstack .create ?_, fun heq => hstack .createLen ?_⟩
    · rw [HashstrMaker.make, create, heq]
    · rw [HashstrMaker.make, createLen, heq, cstr_eq_self hz]
  · intro h m m' heq
    have hnil : (m.make []).h = 5381 := by
      induction m with
      | dup m ih => exact ih heq
      | create | createLen | printf | alloca | allocaLen => rfl
    rcases m'.make_cases hz ht with hm | hm
    · exact h.1 (by rw [← hnil, heq, hm])
    · exact h.2 (by rw [← hnil, heq, hm])

/-- **key の比較が文字列の比較と同じなのは 2 通りの hash が一致し、空の文字列が関わらないか hash で見分けられるとき。**
比較はいつも全順序。 -/
theorem hashstr_keys_iff (hs : 0 ∉ s) (ht : 0 ∉ t) :
    (SameKeys s t ∧ Std.TransCmp Hashstr.quickCmp ∧ Std.LawfulEqCmp Hashstr.quickCmp) ↔
      (s = t → s ≠ [] ∧ djbHashStr s = djbHashBuf s) ∧
        (s = [] → t ≠ [] → HashesApart t) ∧ (t = [] → s ≠ [] → HashesApart s) := by
  rw [and_iff_left ⟨inferInstance, inferInstance⟩, sameKeys_iff]
  by_cases hst : s = t
  · obtain rfl := hst
    simp only [iff_true, forall_const]
    rw [and_iff_left ⟨fun h h' => absurd h h', fun h h' => absurd h h'⟩]
    constructor
    · intro h
      refine ⟨?_, ?_⟩
      · rintro rfl
        exact absurd (h .create (.alloca [1])) (by decide)
      · have heq := h .create .createLen
        exact congrArg Hashstr.h heq
    · rintro ⟨hne, hhash⟩
      have hmake : ∀ m : HashstrMaker, m.make s = ⟨djbHashBuf s, s⟩ := fun m =>
        (m.make_cases hs hne).elim (hhash ▸ ·) id
      exact fun m m' => (hmake m).trans (hmake m').symm
  simp only [hst, iff_false, false_implies, true_and]
  rcases eq_or_ne s [] with rfl | hs₀
  · rw [make_nil_ne_iff ht (Ne.symm hst)]
    exact ⟨fun h => ⟨fun _ _ => h, fun _ h' => absurd rfl h'⟩, fun h => h.1 rfl (Ne.symm hst)⟩
  rcases eq_or_ne t [] with rfl | ht₀
  · have hswap : (∀ m m' : HashstrMaker, ¬ m.make s = m'.make []) ↔ HashesApart s := by
      rw [← make_nil_ne_iff hs hst]
      exact ⟨fun h m m' heq => h m' m heq.symm, fun h m m' heq => h m' m heq.symm⟩
    rw [hswap]
    exact ⟨fun h => ⟨fun _ h' => absurd rfl h', fun _ _ => h⟩, fun h => h.2 rfl hst⟩
  refine iff_of_true (fun m m' heq => hst ?_) ⟨fun h => absurd h hs₀, fun h => absurd h ht₀⟩
  have hstr : (m.make s).s = s := by
    rcases m.make_cases hs hs₀ with hm | hm <;> rw [hm]
  have hstr' : (m'.make t).s = t := by
    rcases m'.make_cases ht ht₀ with hm | hm <;> rw [hm]
  rw [← hstr, heq, hstr']

/-- ASCII の文字列では key の比較は文字列の比較 -/
theorem hashstr_keys_ascii : SameKeys (ascii "meta1") (ascii "meta1") :=
  ((hashstr_keys_iff (by decide) (by decide)).mpr
    ⟨fun _ => by decide +kernel, fun h => absurd h (by decide), fun h => absurd h (by decide)⟩).1

/-- 上位 bit の立つ byte では同じ文字列から違う key ができる -/
theorem hashstr_keys_differ :
    Hashstr.quickCmp (HashstrMaker.create.make [0xe9]) (HashstrMaker.createLen.make [0xe9]) ≠ .eq := by
  decide

end Redcurrant.Metautils
