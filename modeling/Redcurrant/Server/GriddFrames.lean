import Redcurrant.Infra.Run
import Redcurrant.Server.Gridd

/-!
# gridd の request の列

request の列をどう切って読んでも、渡る request は列の message である（`gridd_frames`）。
-/

namespace Redcurrant.Server

open Infra Metautils List GriddClient

variable {Msg : Type} {d : GriddDispatcher Msg}

/-! ## request の列 -/

/-- transport が受け付ける長さの BER の message -/
structure GriddRequest (d : GriddDispatcher Msg) where
  payload : Bytes
  msg : Msg
  sized : SizeOk payload.length
  decoded : d.decode payload = some msg

def griddStream (reqs : List (GriddRequest d)) : Bytes := reqs.flatMap fun q => l4vFrame q.payload

/-- どの request も済む -/
def GriddDispatcher.ServesAll (d : GriddDispatcher Msg) (msgs : List Msg) : Prop :=
  Along (fun past q => past ++ [q]) (fun past q => d.serves past q = true) [] msgs

/-- 済まない最初の request まで -/
def GriddDispatcher.upToRefused (d : GriddDispatcher Msg) : List Msg → List Msg → List Msg
  | _, [] => []
  | past, q :: rest => q :: if d.serves past q then d.upToRefused (past ++ [q]) rest else []

theorem foldl_concat : ∀ (l past : List Msg), l.foldl (fun past q => past ++ [q]) past = past ++ l
  | [], past => (append_nil past).symm
  | q :: l, past => by rw [foldl_cons, foldl_concat l, append_assoc, singleton_append]

theorem servesAll_append (l l' : List Msg) : d.ServesAll (l ++ l') ↔ d.ServesAll l ∧
    Along (fun past q => past ++ [q]) (fun past q => d.serves past q = true) l l' := by
  rw [GriddDispatcher.ServesAll, along_append, foldl_concat]
  rfl

theorem upToRefused_append {q : Msg} {post : List Msg} : ∀ {pre past : List Msg},
    Along (fun past q => past ++ [q]) (fun past q => d.serves past q = true) past pre →
    d.serves (past ++ pre) q = false →
    d.upToRefused past (pre ++ q :: post) = pre ++ [q]
  | [], past, _, hq => by
    rw [append_nil] at hq
    rw [nil_append, nil_append, GriddDispatcher.upToRefused, hq, if_neg Bool.false_ne_true]
  | p :: pre, past, h, hq => by
    have hq' : d.serves (past ++ [p] ++ pre) q = false := by
      rw [append_assoc]
      exact hq
    rw [cons_append, GriddDispatcher.upToRefused, if_pos h.1, upToRefused_append h.2 hq']
    rfl

/-! ## 1 回の loop -/

/-- 失敗していない。`ahead` は途中の message の後の byte。 -/
structure Pending (d : GriddDispatcher Msg) (reqs rest : List (GriddRequest d)) (ahead : Bytes)
    (c : GriddClient Msg) : Prop where
  handed : c.handed ++ rest.map (·.msg) = reqs.map (·.msg)
  bytes : c.gba ++ ahead = griddStream rest
  part : ∀ q ∈ rest.head?, c.gba.length < (l4vFrame q.payload).length
  served : d.ServesAll c.handed

def Refused (d : GriddDispatcher Msg) (reqs : List (GriddRequest d)) (c : GriddClient Msg) : Prop :=
  ∃ pre q post, reqs.map (·.msg) = pre ++ q :: post ∧ d.ServesAll pre ∧ d.serves pre q = false ∧
    pre ++ [q] <+: c.handed

theorem manageL4v_handed {past handed : List Msg} {gba : Bytes} {rc : Bool}
    (h : manageL4v d past gba = (rc, handed)) : past <+: handed := by
  unfold manageL4v at h
  split at h <;> cases h
  · exact prefix_rfl
  · exact prefix_append _ _

theorem turn_handed {c c' : GriddClient Msg}
    (h : c.turn d = .again c' ∨ ∃ rc, c.turn d = .stop c' rc) : c.handed <+: c'.handed := by
  have hspec := turn_spec d c
  rcases h with h | ⟨rc, h⟩ <;> rw [h] at hspec <;> cases hspec
  case served hmanage => exact manageL4v_handed hmanage
  case refused hmanage => exact manageL4v_handed hmanage
  all_goals exact prefix_rfl

theorem Refused.mono {reqs : List (GriddRequest d)} {c c' : GriddClient Msg} (h : Refused d reqs c)
    (hle : c.handed <+: c'.handed) : Refused d reqs c' := by
  obtain ⟨pre, q, post, heq, hpre, hq, hhanded⟩ := h
  exact ⟨pre, q, post, heq, hpre, hq, hhanded.trans hle⟩

section

variable {reqs rest : List (GriddRequest d)} {ahead : Bytes} {c : GriddClient Msg}

theorem length_lt_pow {q : GriddRequest d} : q.payload.length < 256 ^ 4 := by
  have := q.sized.2
  omega

theorem Pending.head (h : Pending d reqs rest ahead c) (hsized : 4 ≤ c.gba.length) :
    ∃ q rest' t, rest = q :: rest' ∧ t ≠ [] ∧ c.gba ++ t = l4vFrame q.payload ∧
      ahead = t ++ griddStream rest' ∧ l4vGetSize c.gba = q.payload.length := by
  cases rest with
  | nil =>
    have hnil : c.gba = [] := (append_eq_nil_iff.mp h.bytes).1
    rw [hnil] at hsized
    cases hsized
  | cons q rest' =>
    have hpart := h.part q rfl
    have hbytes : c.gba ++ ahead = l4vFrame q.payload ++ griddStream rest' := h.bytes
    obtain ⟨t, ht⟩ := prefix_of_prefix_length_le ⟨ahead, hbytes⟩
      (prefix_append (l4vFrame q.payload) _) (Nat.le_of_lt hpart)
    refine ⟨q, rest', t, rfl, ?_, ht, ?_, l4vGetSize_of_append hsized length_lt_pow ht⟩
    · rintro rfl
      rw [← ht, append_nil] at hpart
      exact Nat.lt_irrefl _ hpart
    · rw [← ht, append_assoc] at hbytes
      exact append_cancel_left hbytes

variable {more : Bytes} {c' : GriddClient Msg}

theorem Pending.complete {x : Bytes} {input : List Slab}
    (h : Pending d reqs rest (content c.input ++ more) c)
    (hbytes : content c.input = x ++ content input) (hsized : 4 ≤ c.gba.length)
    (hge : 4 + l4vGetSize c.gba ≤ (c.gba ++ x).length)
    (hle : (c.gba ++ x).length ≤ max c.gba.length (4 + l4vGetSize c.gba)) :
    ∃ q rest', rest = q :: rest' ∧ content input ++ more = griddStream rest' ∧
      manageL4v d c.handed (c.gba ++ x) = (d.serves c.handed q.msg, c.handed ++ [q.msg]) := by
  obtain ⟨q, rest', t, rfl, htne, ht, hahead, hsize⟩ := h.head hsized
  have htpos := length_pos_iff.mpr htne
  have hframe := congrArg List.length ht
  rw [length_l4vFrame, length_append] at hframe
  rw [length_append] at hge hle
  rw [hbytes, append_assoc] at hahead
  obtain ⟨rfl, hrest⟩ := append_inj hahead (by omega)
  refine ⟨q, rest', rfl, hrest, ?_⟩
  rw [manageL4v, ht, l4vExtract_l4vFrame length_lt_pow, Option.bind_some, q.decoded]

theorem Pending.again (h : Pending d reqs rest (content c.input ++ more) c)
    (ht : c.turn d = .again c') : ∃ rest', Pending d reqs rest' (content c'.input ++ more) c' := by
  have hspec := turn_spec d c
  rw [ht] at hspec
  have hmove : ∀ {x : Bytes} {input : List Slab}, content c.input = x ++ content input →
      c.gba ++ x ++ (content input ++ more) = griddStream rest := by
    intro x input hbytes
    rw [← h.bytes, hbytes, append_assoc, append_assoc]
  cases hspec with
  | sizeRead x input _ hbytes _ hle =>
    refine ⟨rest, h.handed, hmove hbytes, fun q _ => ?_, h.served⟩
    have hpos := q.sized.1
    rw [length_l4vFrame]
    exact Nat.lt_of_le_of_lt hle (by omega)
  | bodyRead x input _ hbytes hsized _ hlt =>
    refine ⟨rest, h.handed, hmove hbytes, fun q hq => ?_, h.served⟩
    obtain ⟨q', rest', t, rfl, -, -, -, hsize⟩ := h.head hsized
    cases hq
    rw [length_l4vFrame, ← hsize]
    exact hlt
  | emptied input hbytes hsized hzero =>
    obtain ⟨q, rest', t, -, -, -, -, hsize⟩ := h.head hsized
    have hpos := q.sized.1
    omega
  | served x input handed hbytes hsized _ hge hle hmanage =>
    obtain ⟨q, rest', rfl, hrest, heq⟩ := h.complete hbytes hsized hge hle
    rw [hmanage] at heq
    obtain ⟨hserves, rfl⟩ := Prod.mk.inj heq
    refine ⟨rest', ?_, hrest, fun q _ => ?_, ?_⟩
    · rw [← h.handed, append_assoc]
      rfl
    · rw [length_l4vFrame]
      exact Nat.add_pos_left (by decide) _
    · exact (servesAll_append _ _).mpr ⟨h.served, hserves.symm, trivial⟩

theorem Pending.stop {rc : NotifyRc} (h : Pending d reqs rest (content c.input ++ more) c)
    (ht : c.turn d = .stop c' rc) :
    (Pending d reqs rest more c' ∧ content c'.input = []) ∨ Refused d reqs c' := by
  have hspec := turn_spec d c
  rw [ht] at hspec
  cases hspec with
  | drained _ hnil =>
    have hbytes := h.bytes
    rw [hnil] at hbytes
    exact .inl ⟨⟨h.handed, hbytes, h.part, h.served⟩, rfl⟩
  | tooBig input hsized hbig =>
    obtain ⟨q, rest', t, -, -, -, -, hsize⟩ := h.head hsized
    have hle := q.sized.2
    omega
  | refused x input handed hbytes hsized _ hge hle hmanage =>
    obtain ⟨q, rest', rfl, hrest, heq⟩ := h.complete hbytes hsized hge hle
    rw [hmanage] at heq
    obtain ⟨hserves, rfl⟩ := Prod.mk.inj heq
    have hhanded := h.handed
    exact .inr ⟨c.handed, q.msg, _, hhanded.symm, h.served, hserves.symm, prefix_rfl⟩

/-! ## 接続の run -/

theorem notifyInput_pending
    (h : (∃ rest, Pending d reqs rest (content c.input ++ more) c) ∨ Refused d reqs c) :
    (∃ rest, Pending d reqs rest more (c.notifyInput d).1 ∧
      content (c.notifyInput d).1.input = []) ∨ Refused d reqs (c.notifyInput d).1 := by
  refine loop_rule (Q := fun c _ => (∃ rest, Pending d reqs rest more c ∧ content c.input = []) ∨
    Refused d reqs c) (I := fun c => (∃ rest, Pending d reqs rest (content c.input ++ more) c) ∨
    Refused d reqs c) ?_ ?_ c h
  · rintro s s' (⟨rest, hs⟩ | hs) ht
    · exact .inl (hs.again ht)
    · exact .inr (hs.mono (turn_handed (.inl ht)))
  rintro s s' rc (⟨rest, hs⟩ | hs) ht
  · rcases hs.stop ht with hs' | hs'
    · exact .inl ⟨rest, hs'⟩
    · exact .inr hs'
  · exact .inr (hs.mono (turn_handed (.inr ⟨rc, ht⟩)))

theorem manageInput_pending {slabs : List Slab}
    (h : (∃ rest, Pending d reqs rest (content slabs ++ more) c ∧ content c.input = []) ∨
      Refused d reqs c) :
    (∃ rest, Pending d reqs rest more (c.manageInput d slabs) ∧
      content (c.manageInput d slabs).input = []) ∨ Refused d reqs (c.manageInput d slabs) := by
  rw [manageInput]
  rcases sequenceHasData_cases (feed c.input slabs) with
    ⟨heq, hnil⟩ | ⟨ds, q, heq, -, hcontent, -⟩ <;> rw [heq]
  · rcases h with ⟨rest, hp, hinput⟩ | h
    · rw [content_feed, hinput, nil_append] at hnil
      have hbytes := hp.bytes
      rw [hnil] at hbytes
      exact .inl ⟨rest, ⟨hp.handed, hbytes, hp.part, hp.served⟩, rfl⟩
    · exact .inr h
  refine notifyInput_pending ?_
  rcases h with ⟨rest, hp, hinput⟩ | h
  · rw [content_feed, hinput, nil_append] at hcontent
    have hbytes := hp.bytes
    rw [hcontent] at hbytes
    exact .inl ⟨rest, hp.handed, hbytes, hp.part, hp.served⟩
  · exact .inr h

theorem foldl_manageInput_pending : ∀ (reads : List (List Slab)) {c : GriddClient Msg},
    ((∃ rest, Pending d reqs rest (content reads.flatten) c ∧ content c.input = []) ∨
      Refused d reqs c) →
    (∃ rest, Pending d reqs rest [] (reads.foldl (manageInput d) c)) ∨
      Refused d reqs (reads.foldl (manageInput d) c)
  | [], c, h => by
    rcases h with ⟨rest, h, -⟩ | h
    · exact .inl ⟨rest, h⟩
    · exact .inr h
  | slabs :: reads, c, h => by
    rw [flatten_cons, content_append] at h
    exact foldl_manageInput_pending reads (manageInput_pending h)

theorem Pending.done (h : Pending d reqs rest [] c) : c.handed = reqs.map (·.msg) := by
  have hhanded := h.handed
  cases rest with
  | nil => rwa [map_nil, append_nil] at hhanded
  | cons q rest' =>
    have hpart := h.part q rfl
    have hbytes : c.gba ++ [] = l4vFrame q.payload ++ griddStream rest' := h.bytes
    rw [← append_nil c.gba, hbytes, length_append] at hpart
    omega

end

/-- **request の列をどう切って読んでも、dispatcher に渡る request は列の message である。** 済まない request があれば
そこまで。 -/
theorem gridd_frames (d : GriddDispatcher Msg) (reqs : List (GriddRequest d))
    (reads : List (List Slab)) (h : content reads.flatten = griddStream reqs) :
    d.upToRefused [] (griddHanded d reads) = d.upToRefused [] (reqs.map (·.msg)) ∧
      (d.ServesAll (reqs.map (·.msg)) → griddHanded d reads = reqs.map (·.msg)) := by
  have hinit : Pending d reqs reqs (content reads.flatten) .init := by
    refine ⟨rfl, h, fun q _ => ?_, trivial⟩
    rw [length_l4vFrame]
    exact Nat.add_pos_left (by decide) _
  rcases foldl_manageInput_pending reads (.inl ⟨reqs, hinit, rfl⟩) with ⟨rest, hp⟩ | hrefused
  · have hdone := hp.done
    rw [← griddHanded] at hdone
    exact ⟨by rw [hdone], fun _ => hdone⟩
  obtain ⟨pre, q, post, heq, hpre, hq, post', hhanded⟩ := hrefused
  rw [← griddHanded, append_assoc, singleton_append] at hhanded
  refine ⟨?_, fun hall => ?_⟩
  · rw [← hhanded, heq, upToRefused_append hpre hq, upToRefused_append hpre hq]
  · rw [heq, servesAll_append] at hall
    exact absurd (hq.symm.trans hall.2.1) Bool.false_ne_true

/-- message をそのまま request とし、すべて済ませる dispatcher -/
def echo : GriddDispatcher Bytes := ⟨some, fun _ _ => true, fun _ _ => true⟩

/-- 長さの途中と中身の途中で切れた 2 つの request -/
theorem gridd_frames_two : griddHanded echo [[.ofBytes [0, 0] (by decide)],
      [.ofBytes [0, 1, 7, 0] (by decide), .ofBytes [0, 0, 2, 8] (by decide)],
      [.ofBytes [9] (by decide)]] = [[7], [8, 9]] :=
  (gridd_frames echo [⟨[7], [7], by decide, rfl⟩, ⟨[8, 9], [8, 9], by decide, rfl⟩] _ rfl).2
    ⟨rfl, rfl, trivial⟩

/-! ## 大きすぎる message -/

theorem handed_of_too_big {payload : Bytes} (hbig : 1024 * 1024 * 1024 < payload.length)
    (hlt : (l4vFrame payload).length < 2 ^ 32) :
    griddHanded d [[.ofBytes (l4vFrame payload) hlt]] = [] := by
  have hsize : ∀ {gba t : Bytes}, 4 ≤ gba.length → gba ++ t = l4vFrame payload →
      l4vGetSize gba = payload.length := by
    intro gba t hsized h
    refine l4vGetSize_of_append hsized ?_ h
    rw [length_l4vFrame] at hlt
    omega
  -- 長さを読むまでは何も渡さず、長さを読むと止まる
  have hloop : ∀ c : GriddClient Msg, c.handed = [] ∧ c.gba ++ content c.input = l4vFrame payload →
      (c.notifyInput d).1.handed = [] := by
    refine loop_rule (Q := fun (c : GriddClient Msg) _ => c.handed = []) ?_ ?_
    · rintro s s' ⟨hhanded, hbytes⟩ ht
      have hno : 4 ≤ s.gba.length → ¬ SizeOk (l4vGetSize s.gba) ∧ l4vGetSize s.gba ≠ 0 := by
        intro hsized
        rw [hsize hsized hbytes]
        exact ⟨fun h => absurd h.2 (by omega), by omega⟩
      have hspec := turn_spec d s
      rw [ht] at hspec
      cases hspec with
      | sizeRead x input _ hread _ _ =>
        rw [hread, ← append_assoc] at hbytes
        exact ⟨hhanded, hbytes⟩
      | emptied _ _ hsized hzero => exact absurd hzero (hno hsized).2
      | bodyRead _ _ _ _ hsized hok _ | served _ _ _ _ hsized hok _ _ _ =>
        exact absurd hok (hno hsized).1
    · rintro s s' rc ⟨hhanded, hbytes⟩ ht
      have hspec := turn_spec d s
      rw [ht] at hspec
      cases hspec with
      | drained _ _ | tooBig _ _ _ => exact hhanded
      | refused _ _ _ _ hsized hok _ _ _ =>
        rw [hsize hsized hbytes] at hok
        exact absurd hok.2 (by omega)
  rw [griddHanded, foldl_cons, foldl_nil, manageInput]
  rcases sequenceHasData_cases (feed init.input [.ofBytes (l4vFrame payload) hlt]) with
    ⟨heq, -⟩ | ⟨ds, q, heq, -, hcontent, -⟩ <;> rw [heq]
  · rfl
  refine hloop _ ⟨rfl, ?_⟩
  rw [content_feed] at hcontent
  rw [content_cons, Slab.bytes_ofBytes] at hcontent
  exact hcontent.symm.trans (append_nil _)

/-- **1 GiB より長い request は渡されない。** -/
theorem too_big_not_handed : ∃ (payload : Bytes) (hlt : (l4vFrame payload).length < 2 ^ 32),
    payload.length = 1024 * 1024 * 1024 + 1 ∧ echo.decode payload = some payload ∧
      griddHanded echo [[.ofBytes (l4vFrame payload) hlt]] ≠ [payload] := by
  have hlen : (List.replicate (1024 * 1024 * 1024 + 1) (48 : UInt8)).length =
      1024 * 1024 * 1024 + 1 := length_replicate
  generalize List.replicate (1024 * 1024 * 1024 + 1) (48 : UInt8) = payload at hlen
  have hlt : (l4vFrame payload).length < 2 ^ 32 := by
    rw [length_l4vFrame, hlen]
    decide
  refine ⟨payload, hlt, hlen, rfl, ?_⟩
  rw [handed_of_too_big (by omega) hlt]
  exact (cons_ne_nil _ _).symm

end Redcurrant.Server
