import Mathlib.Data.List.Nodup

/-!
# 配列の中の双方向リスト

各要素が前後の番号を持ち、両端を beacon が指す双方向リスト。
-/

namespace Redcurrant.Infra

open List Function Option

universe u

/-- 要素が持つ前後の番号 -/
structure Link (α : Type u) where
  (prev next : Option α)
  deriving DecidableEq

structure Beacon (α : Type u) where
  (first last : Option α)
  deriving DecidableEq

variable {α : Type u} {L L' : α → Link α}

/-! ## 区間 -/

/-- 列 `l` の要素が前を `p`、後を `q` として順につながっている -/
def Seg (L : α → Link α) : Option α → List α → Option α → Prop
  | _, [], _ => True
  | p, a :: l, q => (L a).prev = p ∧ (L a).next = l.head?.or q ∧ Seg L (some a) l q

theorem Seg.congr : ∀ {l : List α} {p q : Option α}, (∀ a ∈ l, L' a = L a) → Seg L p l q →
    Seg L' p l q
  | [], _, _, _, _ => trivial
  | a :: l, p, q, h, ⟨hp, hn, hs⟩ => by
    have ha : L' a = L a := h a (by simp)
    exact ⟨ha ▸ hp, ha ▸ hn, hs.congr fun b hb => h b (by simp [hb])⟩

theorem seg_append : ∀ {xs ys : List α} {p q : Option α},
    Seg L p (xs ++ ys) q ↔ Seg L p xs (ys.head?.or q) ∧ Seg L (xs.getLast?.or p) ys q
  | [], ys, p, q => by simp [Seg]
  | a :: xs, ys, p, q => by
    have hlast : ((a :: xs).getLast?.or p) = xs.getLast?.or (some a) := by
      cases xs with
      | nil => rfl
      | cons b xs => simp [getLast?_cons]
    simp [Seg, seg_append, hlast, Option.or_assoc, and_assoc]

/-! ## 操作 -/

section Operations

variable [DecidableEq α]

def setNext (L : α → Link α) (a : Option α) (q : Option α) : α → Link α :=
  match a with
  | some a => update L a { L a with next := q }
  | none => L

def setPrev (L : α → Link α) (a : Option α) (p : Option α) : α → Link α :=
  match a with
  | some a => update L a { L a with prev := p }
  | none => L

/-- 要素を外し、前後を直接つなぐ。自分の番号は消す。 -/
def unlink (L : α → Link α) (a : α) : α → Link α :=
  let next := (L a).next
  let prev := (L a).prev
  update (setPrev (setNext L prev next) next prev) a ⟨none, none⟩

/-- 要素を外した後の両端。外す前の番号を見る。 -/
def Beacon.drop (b : Beacon α) (L : α → Link α) (a : α) : Beacon α where
  first := if b.first = some a then (L a).next else b.first
  last := if b.last = some a then (L a).prev else b.last

def pushFront (L : α → Link α) (b : Beacon α) (a : α) : α → Link α :=
  setPrev (update L a ⟨none, b.first⟩) b.first (some a)

/-- 要素を先頭に入れた後の両端 -/
def Beacon.push (b : Beacon α) (a : α) : Beacon α where
  first := some a
  last := b.last.or (some a)

theorem setNext_of_ne {a q : Option α} {x : α} (h : a ≠ some x) : setNext L a q x = L x := by
  cases a with
  | none => rfl
  | some a => exact update_of_ne (fun e : x = a => h (congrArg some e.symm)) _ _

theorem setPrev_of_ne {a p : Option α} {x : α} (h : a ≠ some x) : setPrev L a p x = L x := by
  cases a with
  | none => rfl
  | some a => exact update_of_ne (fun e : x = a => h (congrArg some e.symm)) _ _

theorem unlink_of_ne {a x : α} (hx : x ≠ a) (hp : (L a).prev ≠ some x)
    (hn : (L a).next ≠ some x) : unlink L a x = L x := by
  rw [unlink, update_of_ne hx, setPrev_of_ne hn, setNext_of_ne hp]

theorem pushFront_of_ne {b : Beacon α} {a x : α} (hx : x ≠ a) (hf : b.first ≠ some x) :
    pushFront L b a x = L x := by
  rw [pushFront, setPrev_of_ne hf, update_of_ne hx]

theorem Seg.setPrev {l : List α} {p q p' : Option α} (hl : l.Nodup) (h : Seg L p l q) :
    Seg (setPrev L l.head? p') p' l q := by
  cases l with
  | nil => trivial
  | cons a l =>
    obtain ⟨ha, hl⟩ := nodup_cons.mp hl
    obtain ⟨-, hn, hs⟩ := h
    refine ⟨by simp [Infra.setPrev], by simpa [Infra.setPrev] using hn, hs.congr fun b hb => ?_⟩
    exact setPrev_of_ne fun e => ha (some.inj e ▸ hb)

theorem Seg.setNext {q' : Option α} : ∀ {l : List α} {p q : Option α}, l.Nodup → Seg L p l q →
    Seg (setNext L l.getLast? q') p l q'
  | [], _, _, _, _ => trivial
  | [a], p, q, _, ⟨hp, _, _⟩ => by
    simpa [Seg, Infra.setNext] using hp
  | a :: b :: l, p, q, hl, ⟨hp, hn, hs⟩ => by
    obtain ⟨ha, hl⟩ := nodup_cons.mp hl
    have hlast : (a :: b :: l).getLast? = (b :: l).getLast? := by simp
    have hne : (b :: l).getLast? ≠ some a := fun e => ha (mem_of_getLast? e)
    rw [hlast]
    refine ⟨?_, ?_, Seg.setNext hl hs⟩
    · rw [setNext_of_ne hne, hp]
    · rw [setNext_of_ne hne, hn, head?_cons, some_or, some_or]

end Operations

/-! ## リスト -/

/-- 番号と beacon が列 `l` を表す -/
structure Chain (L : α → Link α) (b : Beacon α) (l : List α) : Prop where
  nodup : l.Nodup
  first : b.first = l.head?
  last : b.last = l.getLast?
  linked : Seg L none l none

theorem chain_nil : Chain L ⟨none, none⟩ [] := ⟨nodup_nil, rfl, rfl, trivial⟩

variable {b : Beacon α} {l : List α} {a x : α}

section

variable (h : Chain L b l)
include h

theorem Chain.congr (hL : ∀ a ∈ l, L' a = L a) : Chain L' b l :=
  ⟨h.nodup, h.first, h.last, h.linked.congr hL⟩

theorem Chain.first_mem (ha : b.first = some a) : a ∈ l :=
  mem_of_mem_head? (h.first ▸ ha : l.head? = some a)

theorem Chain.last_mem (ha : b.last = some a) : a ∈ l :=
  mem_of_getLast? (h.last ▸ ha : l.getLast? = some a)

theorem Chain.eq_nil_of_first (hb : b.first = none) : l = [] := by
  rwa [h.first, head?_eq_none_iff] at hb

theorem Chain.eq_nil_of_last (hb : b.last = none) : l = [] := by
  rwa [h.last, getLast?_eq_none_iff] at hb

omit h in
theorem Chain.link_eq {xs ys : List α} (h : Chain L b (xs ++ a :: ys)) :
    (L a).prev = xs.getLast? ∧ (L a).next = ys.head? := by
  obtain ⟨-, hp, hn, -⟩ := seg_append.mp h.linked
  exact ⟨by simpa using hp, by simpa using hn⟩

theorem Chain.neighbour_mem (ha : a ∈ l) (hx : (L a).prev = some x ∨ (L a).next = some x) :
    x ∈ l := by
  obtain ⟨xs, ys, rfl⟩ := append_of_mem ha
  obtain ⟨hp, hn⟩ := h.link_eq
  rcases hx with hx | hx
  · have := mem_of_getLast? (hp.symm.trans hx)
    simp [this]
  · have := mem_of_mem_head? (hn.symm.trans hx : ys.head? = some x)
    simp [this]

end

variable [DecidableEq α]

variable (h : Chain L b l)
include h

/-- **先頭への挿入は `::` に当たる。** -/
theorem Chain.pushFront (ha : a ∉ l) : Chain (pushFront L b a) (b.push a) (a :: l) := by
  have hupd : Seg (update L a ⟨none, b.first⟩) none l none :=
    h.linked.congr fun x hx => update_of_ne (ne_of_mem_of_not_mem hx ha) _ _
  refine ⟨nodup_cons.mpr ⟨ha, h.nodup⟩, rfl, ?_, ?_, ?_, ?_⟩
  · simp only [Beacon.push, h.last, getLast?_cons]
    cases l.getLast? <;> rfl
  · rw [Infra.pushFront, setPrev_of_ne fun e => ha (h.first_mem e), update_self]
  · rw [Infra.pushFront, setPrev_of_ne fun e => ha (h.first_mem e), update_self, h.first, or_none]
  · rw [Infra.pushFront, h.first] at *
    exact hupd.setPrev h.nodup

/-- **取り外しは `erase` に当たる。** -/
theorem Chain.unlink (ha : a ∈ l) : Chain (unlink L a) (b.drop L a) (l.erase a) := by
  obtain ⟨xs, ys, rfl⟩ := append_of_mem ha
  obtain ⟨hprev, hnext⟩ := h.link_eq
  have hnd := h.nodup
  rw [nodup_append] at hnd
  obtain ⟨hxs, hays, hdisj⟩ := hnd
  obtain ⟨hay, hys⟩ := nodup_cons.mp hays
  have hax : a ∉ xs := fun hx => hdisj a hx a (by simp) rfl
  have hxy : ∀ x ∈ xs, x ∉ ys := fun x hx hy => hdisj x hx x (by simp [hy]) rfl
  have herase : (xs ++ a :: ys).erase a = xs ++ ys := by
    rw [erase_append_right _ hax, erase_cons_head]
  obtain ⟨hsx, -, -, hsy⟩ := seg_append.mp h.linked
  rw [herase]
  refine ⟨?_, ?_, ?_, ?_⟩
  · exact herase ▸ h.nodup.erase a
  · simp only [Beacon.drop, h.first, hnext]
    cases xs with
    | nil => simp
    | cons x xs => simp [show x ≠ a from fun e => hax (by simp [e])]
  · simp only [Beacon.drop, h.last, hprev]
    cases hy : ys.getLast? with
    | none => simp [getLast?_eq_none_iff.mp hy]
    | some y =>
      have hne : y ≠ a := fun e => hay (e ▸ mem_of_getLast? hy)
      simp [getLast?_cons, hy, hne]
  · -- 左の区間は最後の後の番号だけ、右の区間は先頭の前の番号だけが書き換わる。
    rw [Infra.unlink, hprev, hnext]
    refine seg_append.mpr ⟨?_, ?_⟩
    · have hleft : Seg (setNext L xs.getLast? ys.head?) none xs ys.head? := hsx.setNext hxs
      rw [or_none]
      refine hleft.congr fun x hx => ?_
      rw [update_of_ne (ne_of_mem_of_not_mem hx hax),
        setPrev_of_ne fun e => hxy x hx (mem_of_mem_head? e)]
    have hkeep : Seg (setNext L xs.getLast? ys.head?) (some a) ys none :=
      hsy.congr fun y hy => setNext_of_ne fun e => hxy y (mem_of_getLast? e) hy
    have hright : Seg (setPrev (setNext L xs.getLast? ys.head?) ys.head? xs.getLast?)
        xs.getLast? ys none := hkeep.setPrev hys
    rw [or_none]
    exact hright.congr fun y hy => update_of_ne (ne_of_mem_of_not_mem hy hay) _ _

theorem Chain.unlink_frame (ha : a ∈ l) (hx : x ∉ l) : Infra.unlink L a x = L x :=
  unlink_of_ne (ne_of_mem_of_not_mem ha hx).symm (fun e => hx (h.neighbour_mem ha (.inl e)))
    fun e => hx (h.neighbour_mem ha (.inr e))

theorem Chain.pushFront_frame (hxa : x ≠ a) (hx : x ∉ l) : Infra.pushFront L b a x = L x :=
  pushFront_of_ne hxa fun e => hx (h.first_mem e)

end Redcurrant.Infra
