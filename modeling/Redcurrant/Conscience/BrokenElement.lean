import Redcurrant.Conscience.BrokenHolder

/-!
# 壊れた要素の記録と修理

要素を `n` 回記録し、`n` 回直す。holder は要素ごとの record を通して見る。
-/

namespace Redcurrant.Conscience

open Infra Metautils Function Option BrokenHolder

variable {sv : Services} {einval : Bool} {h h' : BrokenHolder} {n : Nat}

/-! ## 要素 -/

/-- `:` を含まない値 -/
abbrev Token := { b : Bytes // 58 ∉ b }

inductive Element
  | meta1 (ip port : Token)
  | meta2 (ip port : Token)
  | container (ip port cid : Token)
  | content (ip port cid name : Token)

def Element.tokens : Element → List Token
  | .meta1 ip port => [⟨ascii "META1", by decide⟩, ip, port]
  | .meta2 ip port => [ip, port]
  | .container ip port cid => [ip, port, cid]
  | .content ip port cid name => [ip, port, cid, name]

def Element.text (e : Element) : Bytes := [58].intercalate (e.tokens.map Subtype.val)

theorem Element.strsplit_text (e : Element) : strsplit 58 0 e.text = e.tokens.map Subtype.val := by
  have hfree : ∀ t ∈ e.tokens.map Subtype.val, 58 ∉ t := by
    intro t ht
    obtain ⟨t, -, rfl⟩ := List.mem_map.mp ht
    exact t.2
  have hne : e.tokens.map Subtype.val ≠ [] := by cases e <;> exact List.cons_ne_nil _ _
  have htext : e.text ≠ [] := by
    cases e <;> simp [Element.text, Element.tokens]
  exact strsplit_intercalate hfree hne htext (.inl rfl)

/-! ## 見える record -/

def BrokenContent.isContainer (c : BrokenContent) : Bool := c.contentPath.isEmpty

/-- 要素の記録される場所 -/
inductive Slot
  | meta1 (a : AddrKey)
  | meta2 (a : AddrKey)
  | entry (a : AddrKey) (key : Bytes) (container : Bool)
  deriving DecidableEq

inductive Record
  | meta1 (m : BrokenMeta1)
  | meta2 (counter : Int)
  | content (c : BrokenContent)
  deriving DecidableEq

/-- META2 の番地の、鍵の record -/
def BrokenHolder.brokenAt (h : BrokenHolder) (a : AddrKey) : Containers :=
  fun k => (h.meta2 a).bind fun m => m.brokenContainers k

/-- META2 の全体が壊れているか -/
def BrokenHolder.totallyBroken (h : BrokenHolder) (a : AddrKey) : Bool :=
  (h.meta2 a).any fun m => m.totallyBroken

/-- 種の合う record -/
def ofKind (container : Bool) (o : Option BrokenContent) : Option BrokenContent :=
  o.filter fun c => c.isContainer == container

def BrokenHolder.record (h : BrokenHolder) : Slot → Option Record
  | .meta1 a => (h.meta1 a).map .meta1
  | .meta2 a => ((h.meta2 a).filter fun m => m.totallyBroken).map fun m => .meta2 m.counter
  | .entry a k container => (ofKind container (h.brokenAt a k)).map .content

/-- 読める番地 -/
def addrOf (einval : Bool) (ip port : Bytes) : Option AddrKey := buildAddrInfo einval ip (atoi port)

/-- 要素の場所。空の `cid` は META2、空の `name` は container。 -/
def Element.target (einval : Bool) : Element → Option Slot
  | .meta1 ip port => (addrOf einval ip port).map .meta1
  | .meta2 ip port => (addrOf einval ip port).map .meta2
  | .container ip port cid => (addrOf einval ip port).map fun a =>
    if cid.1 = [] then .meta2 a else .entry a (containerKey addKeySize (some cid)) true
  | .content ip port cid name => (addrOf einval ip port).map fun a =>
    if cid.1 = [] then .meta2 a
    else if name.1 = [] then .entry a (containerKey addKeySize (some cid)) true
    else .entry a (contentKey addKeySize (some cid) name) false

def addFix (sv : Services) (einval : Bool) (e : Element) (n : Nat) (h : BrokenHolder) :
    BrokenHolder :=
  (fixElement einval e.text)^[n] ((addElement sv einval e.text)^[n] h)

/-- 要素が無く、他の record は変わっていない -/
def Restored (target : Option Slot) (h h' : BrokenHolder) : Prop :=
  (∀ s, target = some s → h'.record s = none) ∧ ∀ s, target ≠ some s → h'.record s = h.record s

/-! ## 条件 -/

/-- 初めから要素が無い -/
def Absent (target : Option Slot) (h : BrokenHolder) : Prop :=
  ∀ s, target = some s → h.record s = none

/-- 1 つの META2 の中で、content が記録されて直る条件 -/
def ContentFixed (sv : Services) (n : Nat) (cid name : Bytes) (t : Containers) : Prop :=
  if contentKey addKeySize (some cid) name = contentKey fixKeySize (some cid) name then
    match t (contentKey addKeySize (some cid) name) with
    | some c => c.isContainer = false ∧ c.counter ≤ n
    | none => (t (containerKey addKeySize (some cid))).isSome ∨ sv.rawxCount ≤ n
  else
    t (contentKey fixKeySize (some cid) name) = none ∧
      ofKind false (t (contentKey addKeySize (some cid) name)) = none ∧
      ((t (containerKey addKeySize (some cid))).isSome ∨
        (t (contentKey addKeySize (some cid) name)).isSome)

/-- 1 つの META2 の中で、container が記録されて直る条件 -/
def ContainerFixed (sv : Services) (n : Nat) (cid : Bytes) (t : Containers) : Prop :=
  if containerKey addKeySize (some cid) = containerKey fixKeySize (some cid) then
    match t (containerKey addKeySize (some cid)) with
    | some c => c.isContainer = true ∧ c.counter ≤ n
    | none => (∀ k c, t k = some c → removeContainer cid c = false) ∧ sv.rawxCount ≤ n
  else
    t (containerKey fixKeySize (some cid)) = none ∧
      ∃ c, t (containerKey addKeySize (some cid)) = some c ∧ c.isContainer = false

/-- 1 回以上記録して直した後の条件 -/
def Restorable (sv : Services) (einval : Bool) (n : Nat) (h : BrokenHolder) : Element → Prop
  | .meta1 ip port => Absent ((Element.meta1 ip port).target einval) h ∧
    ∀ b, h.brokenAt b (containerKey fixKeySize (token port)) = none
  | .meta2 ip port => addrOf einval ip port = none
  | .container ip port cid => Absent ((Element.container ip port cid).target einval) h ∧
    if strcaseeq ip (ascii "META1") then
      ∀ b, h.brokenAt b (containerKey fixKeySize (token cid)) = none
    else ∀ b, addrOf einval port cid = some b → h.meta1 b = none ∧ sv.meta2Count ≤ n
  | .content ip port cid name =>
    match addrOf einval ip port with
    | none => ∀ b, h.brokenAt b (fixKey ⟨ip, atoi port, token cid, token name, none⟩) = none
    | some a => cid.1 ≠ [] ∧
      (atoi port = 0 →
        ∀ b, b ≠ a → h.brokenAt b (fixKey ⟨ip, atoi port, token cid, token name, none⟩) = none) ∧
      (h.totallyBroken a = true ∨
        if name.1 = [] then ContainerFixed sv n cid (h.brokenAt a)
        else ContentFixed sv n cid name (h.brokenAt a))

/-! ## record の一致 -/

@[simp] theorem ofKind_none (container : Bool) : ofKind container none = none := rfl

theorem ofKind_some (container : Bool) (c : BrokenContent) :
    ofKind container (some c) = if c.isContainer = container then some c else none := by
  cases container <;> cases hc : c.isContainer <;> simp [ofKind, hc]

theorem or_ofKind (o : Option BrokenContent) : (ofKind true o).or (ofKind false o) = o := by
  cases o with
  | none => rfl
  | some c => cases hc : c.isContainer <;> simp [ofKind_some, hc]

theorem eq_of_ofKind {o o' : Option BrokenContent} (ht : ofKind true o' = ofKind true o)
    (hf : ofKind false o' = ofKind false o) : o' = o := by
  rw [← or_ofKind o', ht, hf, or_ofKind]

/-- META1 と、全体の壊れた META2 の record が同じ -/
structure SameNodes (h h' : BrokenHolder) : Prop where
  meta1 : ∀ a, h'.meta1 a = h.meta1 a
  meta2 : ∀ a, h'.record (.meta2 a) = h.record (.meta2 a)

theorem SameNodes.refl (h : BrokenHolder) : SameNodes h h := ⟨fun _ => rfl, fun _ => rfl⟩

theorem SameNodes.trans {h'' : BrokenHolder} (h1 : SameNodes h h') (h2 : SameNodes h' h'') :
    SameNodes h h'' :=
  ⟨fun a => (h2.meta1 a).trans (h1.meta1 a), fun a => (h2.meta2 a).trans (h1.meta2 a)⟩

theorem totallyBroken_eq (h : BrokenHolder) (a : AddrKey) :
    h.totallyBroken a = (h.record (.meta2 a)).isSome := by
  rw [totallyBroken, record]
  cases h.meta2 a with
  | none => rfl
  | some m => cases hm : m.totallyBroken <;> simp [hm]

theorem SameNodes.totallyBroken (hs : SameNodes h h') (a : AddrKey) :
    h'.totallyBroken a = h.totallyBroken a := by
  rw [totallyBroken_eq, totallyBroken_eq, hs.meta2]

theorem brokenAt_of_totallyBroken {a : AddrKey} (hb : h.totallyBroken a = true) (k : Bytes) :
    h.brokenAt a k = none := by
  rw [brokenAt]
  rw [totallyBroken] at hb
  cases hm : h.meta2 a with
  | none => rfl
  | some m =>
    rw [hm] at hb
    exact m.absorbed hb k

/-- 1 つの META2 の中で、要素だけが無い -/
def TableRestored (key : Bytes) (container : Bool) (t t' : Containers) : Prop :=
  (ofKind container (t' key) = none ∧ ofKind (!container) (t' key) = ofKind (!container) (t key)) ∧
    ∀ k, k ≠ key → t' k = t k

theorem map_content_inj {o o' : Option BrokenContent}
    (ho : o'.map Record.content = o.map Record.content) : o' = o :=
  map_injective (fun _ _ heq => by cases heq; rfl) ho

theorem entry_eq_iff {a : AddrKey} {k : Bytes} :
    (∀ c, h'.record (.entry a k c) = h.record (.entry a k c)) ↔ h'.brokenAt a k = h.brokenAt a k := by
  constructor
  · intro heq
    exact eq_of_ofKind (map_content_inj (heq true)) (map_content_inj (heq false))
  · intro heq c
    rw [record, record, heq]

theorem restored_entry_iff (hs : SameNodes h h') {a : AddrKey} {key : Bytes} {c : Bool} :
    Restored (some (.entry a key c)) h h' ↔ TableRestored key c (h.brokenAt a) (h'.brokenAt a) ∧
        ∀ b, b ≠ a → h'.brokenAt b = h.brokenAt b := by
  constructor
  · rintro ⟨hnone, hsame⟩
    have hslot : ∀ b k, (b, k) ≠ (a, key) → h'.brokenAt b k = h.brokenAt b k := by
      intro b k hne
      refine entry_eq_iff.mp fun c' => hsame _ fun heq => hne ?_
      cases heq
      rfl
    refine ⟨⟨⟨?_, ?_⟩, fun k hk => hslot a k fun heq => hk (congrArg Prod.snd heq)⟩,
      fun b hb => funext fun k => hslot b k fun heq => hb (congrArg Prod.fst heq)⟩
    · exact map_eq_none_iff.mp (hnone _ rfl)
    · refine map_content_inj (hsame (.entry a key !c) fun heq => ?_)
      cases c <;> cases heq
  · rintro ⟨⟨⟨hnone, hother⟩, hkeys⟩, haddrs⟩
    refine ⟨fun s hs' => ?_, fun s hne => ?_⟩
    · cases hs'
      exact map_eq_none_iff.mpr hnone
    cases s with
    | meta1 b => rw [record, record, hs.meta1]
    | meta2 b => exact hs.meta2 b
    | entry b k c' =>
      by_cases hb : b = a
      · subst hb
        by_cases hk : k = key
        · subst hk
          have hc : c' = !c := by cases c <;> cases c' <;> simp_all
          rw [record, record, hc, hother]
        · exact entry_eq_iff.mpr (hkeys k hk) c'
      · exact entry_eq_iff.mpr (congrFun (haddrs b hb) k) c'

theorem restored_node_iff (hs : SameNodes h h') {target : Option Slot}
    (ht : ∀ a k c, target ≠ some (.entry a k c)) :
    Restored target h h' ↔ Absent target h ∧ ∀ b, h'.brokenAt b = h.brokenAt b := by
  have hnode : ∀ s, target = some s → h'.record s = h.record s := by
    intro s hs'
    cases s with
    | meta1 b => rw [record, record, hs.meta1]
    | meta2 b => exact hs.meta2 b
    | entry b k c => exact absurd hs' (ht b k c)
  constructor
  · rintro ⟨hnone, hsame⟩
    refine ⟨fun s hs' => (hnode s hs') ▸ hnone s hs', fun b => funext fun k => ?_⟩
    exact entry_eq_iff.mp fun c => hsame _ (ht b k c)
  · rintro ⟨habsent, hsame⟩
    refine ⟨fun s hs' => (hnode s hs').trans (habsent s hs'), fun s _ => ?_⟩
    cases s with
    | meta1 b => rw [record, record, hs.meta1]
    | meta2 b => exact hs.meta2 b
    | entry b k c => exact entry_eq_iff.mpr (congrFun (hsame b) k) c

/-! ## 記録と修理が変えるもの -/

/-- 修理の届く META2 -/
def inScope (einval : Bool) (f : BrokenFields) (b : AddrKey) : Bool :=
  (if f.port = 0 then none else buildAddrInfo einval f.ip f.port).all fun a => b == a

section

variable (f : BrokenFields)
include f

theorem filter_fixInOneMeta2 (o : Option BrokenMeta2) :
    ((o.map (fixInOneMeta2 f)).filter fun m => m.totallyBroken) = o.filter fun m => m.totallyBroken := by
  cases o with
  | none => rfl
  | some m => cases hm : m.totallyBroken <;> simp [fixInOneMeta2, Option.filter, hm]

theorem bind_fixInOneMeta2 (o : Option BrokenMeta2) :
    (fun k => (o.map (fixInOneMeta2 f)).bind fun m => m.brokenContainers k) =
      fixContainers (fixKey f) fun k => o.bind fun m => m.brokenContainers k := by
  have hempty : fixContainers (fixKey f) (fun _ => none) = fun _ => none := by
    funext k
    by_cases hk : k = fixKey f
    · rw [hk, fixContainers, update_self]
      rfl
    · rw [fixContainers, update_of_ne hk]
  cases o with
  | none => exact hempty.symm
  | some m =>
    cases hm : m.totallyBroken with
    | true =>
      have hnone : m.brokenContainers = fun _ => none := funext (m.absorbed hm)
      simp only [map_some, bind_some, fixInOneMeta2, hm, if_true, hnone]
      exact hempty.symm
    | false => simp [fixInOneMeta2, hm]

theorem sameNodes_fixInMeta2 (h : BrokenHolder) : SameNodes h (fixInMeta2 einval f h) := by
  unfold fixInMeta2
  split
  · exact ⟨fun _ => rfl, fun a => by
      simp only [record]
      rw [filter_fixInOneMeta2]⟩
  rename_i a ha
  refine ⟨fun _ => rfl, fun b => ?_⟩
  simp only [record]
  by_cases hb : b = a
  · rw [hb, update_self, filter_fixInOneMeta2]
  · rw [update_of_ne hb]

theorem brokenAt_fixInMeta2 (h : BrokenHolder) (b : AddrKey) : (fixInMeta2 einval f h).brokenAt b =
    if inScope einval f b then fixContainers (fixKey f) (h.brokenAt b) else h.brokenAt b := by
  unfold fixInMeta2 inScope
  split
  · rename_i hnone
    rw [hnone, all_none, if_pos rfl]
    exact bind_fixInOneMeta2 f (h.meta2 b)
  rename_i a ha
  rw [ha, all_some]
  by_cases hb : b = a
  · have hupdate : update h.meta2 a ((h.meta2 a).map (fixInOneMeta2 f)) b =
        (h.meta2 b).map (fixInOneMeta2 f) := by
      rw [hb, update_self]
    rw [if_pos (beq_iff_eq.mpr hb)]
    unfold brokenAt
    simp only [hupdate]
    exact bind_fixInOneMeta2 f (h.meta2 b)
  · rw [if_neg fun hall => hb (beq_iff_eq.mp hall)]
    unfold brokenAt
    simp only [update_of_ne hb]

theorem iterate_fixInMeta2 (n : Nat) (h : BrokenHolder) :
    SameNodes h ((fixInMeta2 einval f)^[n] h) ∧ ∀ b, ((fixInMeta2 einval f)^[n] h).brokenAt b =
        if inScope einval f b
        then update (h.brokenAt b) (fixKey f)
          ((countdown contentCounter)^[n] (h.brokenAt b (fixKey f)))
        else h.brokenAt b := by
  induction n with
  | zero =>
    refine ⟨.refl h, fun b => ?_⟩
    rw [iterate_zero, iterate_zero, id, id, update_eq_self, ite_self]
  | succ n ih =>
    rw [iterate_succ_apply']
    refine ⟨ih.1.trans (sameNodes_fixInMeta2 f _), fun b => ?_⟩
    rw [brokenAt_fixInMeta2, ih.2 b]
    split
    · rw [fixContainers, update_self, update_idem, iterate_succ_apply']
    · rfl

end

theorem addContainer_idem (cid : Bytes) (content cause : Option Bytes) (t : Containers) :
    addContainer sv cid content cause (addContainer sv cid content cause t) =
      addContainer sv cid content cause t := by
  have hblocked : ∀ t' : Containers, (t' (containerKey addKeySize (some cid))).isSome = true →
      addContainer sv cid content cause t' = t' := fun t' ht' => if_pos ht'
  by_cases hall : (t (containerKey addKeySize (some cid))).isSome = true
  · rw [hblocked t hall, hblocked t hall]
  cases content with
  | none =>
    refine hblocked _ ?_
    rw [addContainer, if_neg hall, update_self]
    rfl
  | some name =>
    by_cases hname : (t (contentKey addKeySize (some cid) name)).isSome = true
    · have hsame : addContainer sv cid (some name) cause t = t := by
        rw [addContainer, if_neg hall]
        exact if_pos hname
      rw [hsame, hsame]
    generalize ht' : addContainer sv cid (some name) cause t = t'
    have hset : (t' (contentKey addKeySize (some cid) name)).isSome = true := by
      rw [← ht', addContainer, if_neg hall]
      simp [if_neg hname]
    by_cases hall' : (t' (containerKey addKeySize (some cid))).isSome = true
    · exact hblocked t' hall'
    · rw [addContainer, if_neg hall']
      exact if_pos hset

variable {f : BrokenFields} {a : AddrKey} {cid : Bytes}

theorem sameNodes_addInMeta2 (hcid : f.cid = some cid) (h : BrokenHolder) :
    SameNodes h (addInMeta2 sv einval f h) := by
  unfold addInMeta2
  split
  · exact .refl h
  rename_i a ha
  refine ⟨fun _ => rfl, fun b => ?_⟩
  simp only [record]
  by_cases hb : b = a
  · rw [hb]
    cases hm : h.meta2 a with
    | none => simp [addInBrokenMeta2, createBrokenMeta2, hcid]
    | some m => cases hbroken : m.totallyBroken <;>
        simp [addInBrokenMeta2, hcid, hbroken, Option.filter]
  · rw [update_of_ne hb]

theorem brokenAt_addInMeta2 (haddr : buildAddrInfo einval f.ip f.port = some a)
    (hcid : f.cid = some cid) (h : BrokenHolder) (b : AddrKey) :
    (addInMeta2 sv einval f h).brokenAt b =
      if b = a ∧ h.totallyBroken a = false
      then addContainer sv cid f.content f.cause (h.brokenAt b) else h.brokenAt b := by
  rw [addInMeta2, haddr]
  by_cases hb : b = a
  · subst hb
    unfold brokenAt totallyBroken
    simp only [update_self, true_and]
    cases hm : h.meta2 b with
    | none => simp [addInBrokenMeta2, createBrokenMeta2, hcid]
    | some m => cases hbroken : m.totallyBroken <;> simp [addInBrokenMeta2, hcid, hbroken]
  · rw [if_neg fun hand => hb hand.1]
    unfold brokenAt
    simp only [update_of_ne hb]

theorem iterate_addInMeta2 (hn : 0 < n) (haddr : buildAddrInfo einval f.ip f.port = some a)
    (hcid : f.cid = some cid) (h : BrokenHolder) :
    SameNodes h ((addInMeta2 sv einval f)^[n] h) ∧
      ∀ b, ((addInMeta2 sv einval f)^[n] h).brokenAt b =
        if b = a ∧ h.totallyBroken a = false
        then addContainer sv cid f.content f.cause (h.brokenAt b) else h.brokenAt b := by
  obtain ⟨m, rfl⟩ : ∃ m, n = m + 1 := ⟨n - 1, by omega⟩
  clear hn
  induction m with
  | zero => exact ⟨sameNodes_addInMeta2 hcid h, brokenAt_addInMeta2 haddr hcid h⟩
  | succ m ih =>
    rw [iterate_succ_apply']
    refine ⟨ih.1.trans (sameNodes_addInMeta2 hcid _), fun b => ?_⟩
    rw [brokenAt_addInMeta2 haddr hcid, ih.1.totallyBroken, ih.2 b]
    split
    · exact addContainer_idem _ _ _ _
    · rfl

end Redcurrant.Conscience
