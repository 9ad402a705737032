import Redcurrant.Infra.Loop
import Redcurrant.Metautils.L4v
import Redcurrant.Server.Slab

/-!
# gridd の transport

`transport_gridd_notify_input` は長さ、中身の順に `gba_l4v` に読み、そろえば BER を読んで handler を呼ぶ。
-/

namespace Redcurrant.Server

open Infra Metautils List

/-! ## dispatcher -/

/-- 接続の外。`decode` は BER の decoder、`handler` はその結果、`finalSent` は最後の応答を送ったか。 -/
structure GriddDispatcher (Msg : Type) where
  decode : Bytes → Option Msg
  (handler finalSent : List Msg → Msg → Bool)

/-- request が済んで、接続が続く -/
def GriddDispatcher.serves {Msg : Type} (d : GriddDispatcher Msg) (past : List Msg) (q : Msg) :
    Bool :=
  d.handler past q && d.finalSent past q

/-! ## 接続 -/

/-- `RC_*` -/
inductive NotifyRc
  | error
  | noData
  | processed
  deriving DecidableEq

/-- 接続の状態。`handed` は dispatcher に渡した request の列。 -/
structure GriddClient (Msg : Type) where
  input : List Slab
  gbaL4v : Option Bytes
  handed : List Msg
  (outputClosed waitingForClose : Bool)

section

variable {Msg : Type}

def gbaRead (gba : Bytes) (ds : Slab) (max : Nat) : Bytes × Slab :=
  if max ≤ gba.length then (gba, ds)
  else
    match ds.consume (max - gba.length) with
    | some (data, ds) => (gba ++ data, ds)
    | none => (gba, ds)

variable (d : GriddDispatcher Msg)

/-- `_client_manage_l4v` -/
def manageL4v (handed : List Msg) (gba : Bytes) : Bool × List Msg :=
  match (l4vExtract gba).bind d.decode with
  | none => (false, handed)
  | some q => (d.serves handed q, handed ++ [q])

/-- `transport_gridd_notify_input` の loop の 1 回 -/
def GriddClient.turn (c : GriddClient Msg) : Turn (GriddClient Msg) NotifyRc :=
  let rc := if c.waitingForClose then NotifyRc.noData else .processed
  match sequenceHasData c.input with
  | (false, input) => .stop { c with input := input } rc
  | (true, input) =>
    let gba := c.gbaL4v.getD []
    match sequenceShift input with
    | none => .stop { c with input := input, gbaL4v := some gba } rc
    | some (ds, input) =>
      if !ds.hasData then .again { c with input := input, gbaL4v := some gba }
      else if gba.length < 4 then
        let (gba, ds) := gbaRead gba ds 4
        .again { c with input := sequenceUnshift input ds, gbaL4v := some gba }
      else
        let payloadSize := l4vGetSize gba
        if payloadSize = 0 then
          .again { c with input := sequenceUnshift input ds, gbaL4v := none }
        else if 1024 * 1024 * 1024 < payloadSize then
          .stop { c with
            input := sequenceUnshift input ds
            gbaL4v := none
            outputClosed := true } .error
        else
          let (gba, ds) := gbaRead gba ds (payloadSize + 4)
          let c := { c with input := sequenceUnshift input ds, gbaL4v := some gba }
          if 4 + payloadSize ≤ gba.length then
            match manageL4v d c.handed gba with
            | (false, handed) => .stop { c with handed := handed, outputClosed := true } .error
            | (true, handed) => .again { c with handed := handed, gbaL4v := none }
          else .again c

/-! ## 1 回の効果 -/

theorem gbaRead_eq {gba : Bytes} {ds : Slab} {n : Nat} (hd : ds.hasData = true)
    (hlt : gba.length < n) :
    ∃ ds', gbaRead gba ds n = (gba ++ ds.bytes.take (n - gba.length), ds') ∧
      ds'.bytes = ds.bytes.drop (n - gba.length) := by
  obtain ⟨ds', heq, hbytes⟩ := ds.consume_eq hd (n - gba.length)
  refine ⟨ds', ?_, hbytes⟩
  rw [gbaRead, if_neg (by omega), heq]

/-- `gba_read` と `data_slab_sequence_unshift` で、列の初めの byte が message に移る -/
theorem gbaRead_unshift (gba : Bytes) {ds : Slab} (q : List Slab) (n : Nat)
    (hd : ds.hasData = true) :
    ∃ x, (gbaRead gba ds n).1 = gba ++ x ∧
      content (ds :: q) = x ++ content (sequenceUnshift q (gbaRead gba ds n).2) ∧
      (gba ++ x).length ≤ max gba.length n ∧ (gba.length < n → x ≠ []) := by
  by_cases hlt : gba.length < n
  · obtain ⟨ds', heq, hbytes⟩ := gbaRead_eq hd hlt
    have hpos := length_pos_iff.mpr (Slab.hasData_iff.mp hd)
    refine ⟨ds.bytes.take (n - gba.length), by rw [heq], ?_, ?_, fun _ => ?_⟩
    · rw [heq, content_unshift, hbytes, ← append_assoc, take_append_drop, content_cons]
    · rw [length_append, length_take]
      omega
    · rw [← length_pos_iff, length_take]
      omega
  · have heq : gbaRead gba ds n = (gba, ds) := by rw [gbaRead, if_pos (by omega)]
    refine ⟨[], by rw [heq, append_nil], ?_, ?_, fun h => absurd h hlt⟩
    · rw [heq, content_unshift, content_cons, nil_append]
    · rw [append_nil]
      exact Nat.le_max_left _ _

def GriddClient.gba (c : GriddClient Msg) : Bytes := c.gbaL4v.getD []

def SizeOk (n : Nat) : Prop := 0 < n ∧ n ≤ 1024 * 1024 * 1024

instance : DecidablePred SizeOk := fun _ => inferInstanceAs (Decidable (_ ∧ _))

inductive GriddTurn (d : GriddDispatcher Msg) (c : GriddClient Msg) :
    Turn (GriddClient Msg) NotifyRc → Prop
  | drained (rc : NotifyRc) (bytes : content c.input = []) :
      GriddTurn d c (.stop { c with input := [] } rc)
  | sizeRead (x : Bytes) (input : List Slab) (some_read : x ≠ [])
      (bytes : content c.input = x ++ content input) (short : c.gba.length < 4)
      (le : (c.gba ++ x).length ≤ 4) :
      GriddTurn d c (.again { c with input := input, gbaL4v := some (c.gba ++ x) })
  | emptied (input : List Slab) (bytes : content c.input = content input)
      (sized : 4 ≤ c.gba.length) (size : l4vGetSize c.gba = 0) :
      GriddTurn d c (.again { c with input := input, gbaL4v := none })
  | tooBig (input : List Slab) (sized : 4 ≤ c.gba.length)
      (size : 1024 * 1024 * 1024 < l4vGetSize c.gba) :
      GriddTurn d c (.stop { c with input := input, gbaL4v := none, outputClosed := true } .error)
  | bodyRead (x : Bytes) (input : List Slab) (some_read : x ≠ [])
      (bytes : content c.input = x ++ content input) (sized : 4 ≤ c.gba.length)
      (size : SizeOk (l4vGetSize c.gba)) (lt : (c.gba ++ x).length < 4 + l4vGetSize c.gba) :
      GriddTurn d c (.again { c with input := input, gbaL4v := some (c.gba ++ x) })
  | refused (x : Bytes) (input : List Slab) (handed : List Msg)
      (bytes : content c.input = x ++ content input) (sized : 4 ≤ c.gba.length)
      (size : SizeOk (l4vGetSize c.gba)) (ge : 4 + l4vGetSize c.gba ≤ (c.gba ++ x).length)
      (le : (c.gba ++ x).length ≤ max c.gba.length (4 + l4vGetSize c.gba))
      (manage : manageL4v d c.handed (c.gba ++ x) = (false, handed)) :
      GriddTurn d c (.stop { c with
        input := input
        gbaL4v := some (c.gba ++ x)
        handed := handed
        outputClosed := true } .error)
  | served (x : Bytes) (input : List Slab) (handed : List Msg)
      (bytes : content c.input = x ++ content input) (sized : 4 ≤ c.gba.length)
      (size : SizeOk (l4vGetSize c.gba)) (ge : 4 + l4vGetSize c.gba ≤ (c.gba ++ x).length)
      (le : (c.gba ++ x).length ≤ max c.gba.length (4 + l4vGetSize c.gba))
      (manage : manageL4v d c.handed (c.gba ++ x) = (true, handed)) :
      GriddTurn d c (.again { c with input := input, gbaL4v := none, handed := handed })

theorem turn_spec (c : GriddClient Msg) : GriddTurn d c (c.turn d) := by
  unfold GriddClient.turn
  rcases sequenceHasData_cases c.input with ⟨heq, hnil⟩ | ⟨ds, q, heq, hd, hcontent, -⟩
  · rw [heq]
    exact .drained _ hnil
  have hcontent' : content (ds :: q) = content c.input := by rw [hcontent, content_cons]
  have hunshift : content c.input = content (sequenceUnshift q ds) := by
    rw [content_unshift, hcontent]
  simp only [heq, sequenceShift, hd, Bool.not_true, Bool.false_eq_true, if_false,
    ← GriddClient.gba.eq_1]
  split
  · rename_i hshort
    obtain ⟨x, hgba, hbytes, hle, hne⟩ := gbaRead_unshift c.gba q 4 hd
    rw [hcontent'] at hbytes
    rw [hgba]
    exact .sizeRead x _ (hne hshort) hbytes hshort (by omega)
  rename_i hsized
  split
  · rename_i hzero
    exact .emptied _ hunshift (by omega) hzero
  rename_i hpos
  split
  · rename_i hbig
    exact .tooBig _ (by omega) hbig
  rename_i hbig
  have hsize : SizeOk (l4vGetSize c.gba) := ⟨by omega, by omega⟩
  obtain ⟨x, hgba, hbytes, hle, hne⟩ := gbaRead_unshift c.gba q (l4vGetSize c.gba + 4) hd
  rw [hcontent'] at hbytes
  rw [Nat.add_comm _ 4] at hle
  simp only [hgba]
  split
  · rename_i hge
    split
    · rename_i handed hmanage
      exact .refused x _ handed hbytes (by omega) hsize hge hle hmanage
    · rename_i handed hmanage
      exact .served x _ handed hbytes (by omega) hsize hge hle hmanage
  · have hlen : (c.gba ++ x).length = c.gba.length + x.length := length_append
    exact .bodyRead x _ (hne (by omega)) hbytes (by omega) hsize (by omega)

/-! ## loop -/

/-- 残っている byte と、途中の message -/
def GriddClient.work (c : GriddClient Msg) : Nat :=
  2 * (content c.input).length + if c.gba.length = 0 then 0 else 1

variable {c c' : GriddClient Msg}

theorem work_of_read {x : Bytes} (hne : x ≠ []) (hbytes : content c.input = x ++ content c'.input) :
    c'.work < c.work := by
  have hpos := length_pos_iff.mpr hne
  unfold GriddClient.work
  rw [hbytes, length_append]
  split <;> split <;> omega

theorem work_of_reset {x : Bytes} (hgba : c.gba.length ≠ 0) (hreset : c'.gba = [])
    (hbytes : content c.input = x ++ content c'.input) : c'.work < c.work := by
  unfold GriddClient.work
  rw [hbytes, length_append, if_neg hgba, hreset, if_pos length_nil]
  omega

theorem work_turn {d : GriddDispatcher Msg} (h : c.turn d = .again c') : c'.work < c.work := by
  have hspec := turn_spec d c
  rw [h] at hspec
  cases hspec with
  | sizeRead x input hne hbytes _ _ | bodyRead x input hne hbytes _ _ _ =>
    exact work_of_read hne hbytes
  | emptied input hbytes hsized _ => exact work_of_reset (x := []) (by omega) rfl hbytes
  | served x input handed hbytes hsized _ _ _ _ => exact work_of_reset (by omega) rfl hbytes

/-- `transport_gridd_notify_input` -/
def GriddClient.notifyInput (c : GriddClient Msg) : GriddClient Msg × NotifyRc :=
  loop (GriddClient.turn d) GriddClient.work work_turn c

/-- network から 1 回読む（`_client_manage_input`） -/
def GriddClient.manageInput (c : GriddClient Msg) (slabs : List Slab) : GriddClient Msg :=
  match sequenceHasData (feed c.input slabs) with
  | (false, _) => { c with input := [] }
  | (true, input) => (({ c with input := input } : GriddClient Msg).notifyInput d).1

def GriddClient.init : GriddClient Msg := ⟨[], none, [], false, false⟩

/-- 何回か読んだ後までに dispatcher に渡した request -/
def griddHanded (reads : List (List Slab)) : List Msg :=
  (reads.foldl (GriddClient.manageInput d) .init).handed

end

end Redcurrant.Server
