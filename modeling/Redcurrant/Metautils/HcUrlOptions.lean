import Mathlib.Data.List.Nodup
import Redcurrant.Metautils.HcUrl

/-!
# URL の option の列

option は「名=値」のまま逆順に並び、同じ名のものは最初の場所で置き換わる。
-/

namespace Redcurrant.Metautils

open Infra List

variable {k piece : Bytes} {pieces options : List Bytes}

/-- 「名=値」の片を列に加える -/
def addPiece (options : List Bytes) (piece : Bytes) : List Bytes :=
  if 61 ∈ piece then putOption (optionName piece) piece options else options

theorem name_append_value (h : 61 ∈ piece) : optionName piece ++ 61 :: optionValue piece = piece := by
  have hsplit : splitAtChar 61 piece = some (optionName piece, optionValue piece) := if_pos h
  exact (eq_append_of_splitAtChar hsplit).1.symm

theorem addOption_eq (u : HcUrl) (piece : Bytes) : u.addOption piece = { u with
    options := addPiece u.options piece
    whole := if 61 ∈ piece then none else u.whole } := by
  unfold HcUrl.addOption addPiece
  by_cases h : 61 ∈ piece
  · rw [if_pos h, if_pos h, if_pos h, HcUrl.setOption, Option.getD_some, name_append_value h]
  · rw [if_neg h, if_neg h, if_neg h]

theorem parseOptions_eq (u : HcUrl) (options : Option Bytes) : u.parseOptions options = { u with
    options := (strsplit 38 0 (options.getD [])).foldl addPiece []
    whole := if 61 ∈ options.getD [] then none else u.whole } := by
  have hfold : ∀ (pieces : List Bytes) (u : HcUrl), pieces.foldl HcUrl.addOption u = { u with
      options := pieces.foldl addPiece u.options
      whole := if pieces.any (fun piece => decide (61 ∈ piece)) then none else u.whole } := by
    intro pieces
    induction pieces with
    | nil => exact fun u => by simp
    | cons piece pieces ih =>
      intro u
      rw [foldl_cons, ih, addOption_eq, foldl_cons, any_cons]
      by_cases h : 61 ∈ piece <;> simp [h]
  have hany : (strsplit 38 0 (options.getD [])).any (fun piece => decide (61 ∈ piece)) = true ↔
      61 ∈ options.getD [] := by
    rw [← mem_strsplit_iff (c := 38) (by decide), any_eq_true]
    simp
  rw [HcUrl.parseOptions, hfold]
  simp only [hany]

/-! ## 置き換え -/

theorem replaceOption_eq_none : replaceOption k piece options = none ↔
    ∀ o ∈ options, optionName o ≠ k := by
  induction options with
  | nil => simp [replaceOption]
  | cons o options ih =>
    rw [replaceOption]
    by_cases hk : optionName o = k
    · simp [hk]
    · rw [if_neg hk, Option.map_eq_none_iff, ih]
      simp [hk]

section

variable {options' : List Bytes} (h : replaceOption k piece options = some options')
include h

theorem names_replaceOption (hname : optionName piece = k) :
    options'.map optionName = options.map optionName := by
  induction options generalizing options' with
  | nil => cases h
  | cons o options ih =>
    rw [replaceOption] at h
    split at h
    · rename_i hk
      cases h
      rw [map_cons, map_cons, hname, hk]
    · obtain ⟨rest, hrest, rfl⟩ := Option.map_eq_some_iff.mp h
      rw [map_cons, map_cons, ih hrest]

theorem mem_replaceOption {o : Bytes} (ho : o ∈ options') : o = piece ∨ o ∈ options := by
  induction options generalizing options' with
  | nil => cases h
  | cons o' options ih =>
    rw [replaceOption] at h
    split at h
    · cases h
      exact (mem_cons.mp ho).imp_right (mem_cons_of_mem _)
    obtain ⟨rest, hrest, rfl⟩ := Option.map_eq_some_iff.mp h
    rcases mem_cons.mp ho with rfl | ho
    · exact .inr mem_cons_self
    · exact (ih hrest ho).imp_right (mem_cons_of_mem _)

theorem self_mem_replaceOption : piece ∈ options' := by
  induction options generalizing options' with
  | nil => cases h
  | cons o options ih =>
    rw [replaceOption] at h
    split at h
    · cases h
      exact mem_cons_self
    · obtain ⟨rest, hrest, rfl⟩ := Option.map_eq_some_iff.mp h
      exact mem_cons_of_mem _ (ih hrest)

end

/-! ## 読んだ列 -/

theorem names_addPiece (options : List Bytes) (piece : Bytes) :
    (addPiece options piece).map optionName =
      if 61 ∈ piece ∧ optionName piece ∉ options.map optionName
      then optionName piece :: options.map optionName else options.map optionName := by
  unfold addPiece putOption
  by_cases hpiece : 61 ∈ piece
  · rw [if_pos hpiece]
    cases hreplace : replaceOption (optionName piece) piece options with
    | none =>
      have hnew : optionName piece ∉ options.map optionName := by
        intro hmem
        obtain ⟨o, ho, heq⟩ := mem_map.mp hmem
        exact replaceOption_eq_none.mp hreplace o ho heq
      rw [if_pos ⟨hpiece, hnew⟩, Option.getD_none, map_cons]
    | some options' =>
      have hold : optionName piece ∈ options.map optionName := by
        by_contra hnew
        have hnone : replaceOption (optionName piece) piece options = none :=
          replaceOption_eq_none.mpr fun o ho heq => hnew (heq ▸ mem_map_of_mem ho)
        rw [hreplace] at hnone
        cases hnone
      rw [if_neg fun h => h.2 hold, Option.getD_some, names_replaceOption hreplace rfl]
  · rw [if_neg hpiece, if_neg fun h => hpiece h.1]

theorem mem_addPiece {o : Bytes} (h : o ∈ addPiece options piece) :
    (o = piece ∧ 61 ∈ piece) ∨ o ∈ options := by
  unfold addPiece putOption at h
  split at h
  · rename_i hpiece
    cases hreplace : replaceOption (optionName piece) piece options with
    | none =>
      rw [hreplace] at h
      exact (mem_cons.mp h).imp_left fun heq => ⟨heq, hpiece⟩
    | some options' =>
      rw [hreplace] at h
      exact (mem_replaceOption hreplace h).imp_left fun heq => ⟨heq, hpiece⟩
  · exact .inr h

theorem self_mem_addPiece (h : 61 ∈ piece) : piece ∈ addPiece options piece := by
  unfold addPiece putOption
  rw [if_pos h]
  cases hreplace : replaceOption (optionName piece) piece options with
  | none => exact mem_cons_self
  | some options' => exact self_mem_replaceOption hreplace

theorem foldl_addPiece_spec (hnodup : (options.map optionName).Nodup) :
    ((pieces.foldl addPiece options).map optionName).Nodup ∧
      ∀ o ∈ pieces.foldl addPiece options, (o ∈ pieces ∧ 61 ∈ o) ∨ o ∈ options := by
  induction pieces generalizing options with
  | nil => exact ⟨hnodup, fun o ho => .inr ho⟩
  | cons piece pieces ih =>
    have hnodup' : ((addPiece options piece).map optionName).Nodup := by
      rw [names_addPiece]
      split
      · rename_i hnew
        exact nodup_cons.mpr ⟨hnew.2, hnodup⟩
      · exact hnodup
    obtain ⟨hn, hmem⟩ := ih hnodup'
    refine ⟨hn, fun o ho => ?_⟩
    rcases hmem o ho with ⟨hin, heq⟩ | hin
    · exact .inl ⟨mem_cons_of_mem _ hin, heq⟩
    rcases mem_addPiece hin with ⟨rfl, heq⟩ | hin
    · exact .inl ⟨mem_cons_self, heq⟩
    · exact .inr hin

theorem foldl_addPiece_nil (pieces : List Bytes) :
    ((pieces.foldl addPiece []).map optionName).Nodup ∧
      ∀ o ∈ pieces.foldl addPiece [], o ∈ pieces ∧ 61 ∈ o := by
  have hnil : (([] : List Bytes).map optionName).Nodup := nodup_nil
  obtain ⟨hnodup, hmem⟩ := @foldl_addPiece_spec pieces [] hnil
  exact ⟨hnodup, fun o ho => (hmem o ho).resolve_right not_mem_nil⟩

theorem foldl_addPiece_reverse (heq : ∀ o ∈ pieces, 61 ∈ o)
    (hnodup : ((pieces.reverse ++ options).map optionName).Nodup) :
    pieces.foldl addPiece options = pieces.reverse ++ options := by
  induction pieces generalizing options with
  | nil => rfl
  | cons piece pieces ih =>
    rw [reverse_cons, append_assoc, singleton_append] at hnodup ⊢
    have hnew : ∀ o ∈ options, optionName o ≠ optionName piece := by
      intro o ho hname
      rw [map_append] at hnodup
      exact (nodup_cons.mp (nodup_append.mp hnodup).2.1).1 (hname ▸ mem_map_of_mem ho)
    have hadd : addPiece options piece = piece :: options := by
      rw [addPiece, if_pos (heq piece mem_cons_self), putOption,
        replaceOption_eq_none.mpr hnew, Option.getD_none]
    rw [foldl_cons, hadd]
    exact ih (fun o ho => heq o (mem_cons_of_mem _ ho)) hnodup

theorem getLast_foldl_addPiece (hne : options ≠ []) :
    ((pieces.foldl addPiece options).map optionName).getLast? =
      (options.map optionName).getLast? := by
  induction pieces generalizing options with
  | nil => rfl
  | cons piece pieces ih =>
    have hnames := names_addPiece options piece
    have hlast : ((addPiece options piece).map optionName).getLast? =
        (options.map optionName).getLast? := by
      rw [hnames]
      split
      · obtain ⟨o, rest, rfl⟩ := exists_cons_of_ne_nil hne
        rw [map_cons, getLast?_cons_cons]
      · rfl
    have hne' : addPiece options piece ≠ [] := by
      intro hnil
      rw [hnil] at hnames
      split at hnames
      · cases hnames
      · exact hne (map_eq_nil_iff.mp hnames.symm)
    rw [foldl_cons, ih hne', hlast]

theorem getLast_names (pieces : List Bytes) : ((pieces.foldl addPiece []).map optionName).getLast? =
    (pieces.find? fun o => decide (61 ∈ o)).map optionName := by
  induction pieces with
  | nil => rfl
  | cons piece pieces ih =>
    rw [foldl_cons, find?_cons]
    by_cases hpiece : 61 ∈ piece
    · have hadd : addPiece [] piece = [piece] := by
        rw [addPiece, if_pos hpiece]
        rfl
      rw [hadd, decide_eq_true hpiece, getLast_foldl_addPiece (cons_ne_nil _ _)]
      rfl
    · have hadd : addPiece [] piece = [] := by rw [addPiece, if_neg hpiece]
      rw [hadd, decide_eq_false hpiece, ih]

theorem last_mem_foldl_addPiece (h : 61 ∈ piece) :
    piece ∈ (pieces ++ [piece]).foldl addPiece options := by
  rw [foldl_append]
  exact self_mem_addPiece h

theorem find_reverse (hnodup : (options.map optionName).Nodup) (k : Bytes) :
    options.reverse.find? (fun o => optionName o == k) =
      options.find? fun o => optionName o == k := by
  have hunique : ∀ {o o' : Bytes}, options.find? (fun o => optionName o == k) = some o →
      o' ∈ options → optionName o' = k → o' = o := by
    intro o o' hfind ho' hk
    have hname : optionName o = k := by simpa using find?_some hfind
    exact inj_on_of_nodup_map hnodup ho' (mem_of_find?_eq_some hfind) (hk.trans hname.symm)
  cases hfind : options.find? fun o => optionName o == k with
  | none =>
    rw [find?_eq_none] at hfind ⊢
    exact fun o ho => hfind o (mem_reverse.mp ho)
  | some o =>
    have hsome : (options.reverse.find? fun o => optionName o == k).isSome := by
      have hk : optionName o = k := by simpa using find?_some hfind
      rw [find?_isSome]
      exact ⟨o, mem_reverse.mpr (mem_of_find?_eq_some hfind), by simp [hk]⟩
    obtain ⟨o', ho'⟩ := Option.isSome_iff_exists.mp hsome
    have hk : optionName o' = k := by simpa using find?_some ho'
    rw [ho', hunique hfind (mem_reverse.mp (mem_of_find?_eq_some ho')) hk]

end Redcurrant.Metautils
