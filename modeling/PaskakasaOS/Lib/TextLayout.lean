import Mathlib.Data.List.GetD

/-!
# Text laid out in rows

A page is a list of finished rows and the row being written. A newline finishes
the row; so does a character that finds it full, and then starts the next one.
`window h` is what a screen of `h` rows shows of a page.
-/
namespace PaskakasaOS.Lib.TextLayout

variable {α : Type*}

structure Page (α : Type*) where
  finished : List (List α)
  current : List α

def Page.empty : Page α := ⟨[], []⟩

def Page.rows (p : Page α) : List (List α) := p.finished ++ [p.current]

/-- The current row is finished and an empty one started. -/
def Page.break (p : Page α) : Page α := ⟨p.rows, []⟩

/-- A character at the end of the current row. -/
def Page.append (p : Page α) (c : α) : Page α := ⟨p.finished, p.current ++ [c]⟩

/-- One character of the text, on rows of `width` characters. -/
def Page.put [DecidableEq α] (width : Nat) (newline : α) (p : Page α) (c : α) : Page α :=
  if c = newline then p.break
  else if p.current.length = width then p.break.append c
  else p.append c

/-- The rows of a text. -/
def layout [DecidableEq α] (width : Nat) (newline : α) (text : List α) : List (List α) :=
  (text.foldl (Page.put width newline) Page.empty).rows

/-- The last `h` rows, padded with empty rows below. -/
def window (h : Nat) (rows : List (List α)) : List (List α) :=
  rows.drop (rows.length - h) ++ List.replicate (h - rows.length) []

/-- How many rows a text starts, behind `n` characters of the current one. -/
def breaks [DecidableEq α] (width : Nat) (newline : α) : Nat → List α → Nat
  | _, [] => 0
  | n, c :: text =>
    if c = newline then breaks width newline 0 text + 1
    else if n = width then breaks width newline 1 text + 1
    else breaks width newline (n + 1) text

@[simp] theorem rows_length (p : Page α) : p.rows.length = p.finished.length + 1 := by
  simp [Page.rows]

@[simp] theorem rows_break (p : Page α) : p.break.rows = p.rows ++ [[]] := rfl

/-- The text starts as many rows as its layout has more than the page before. -/
theorem rows_length_foldl_put [DecidableEq α] (width : Nat) (newline : α) (text : List α) (p : Page α) :
    (text.foldl (Page.put width newline) p).rows.length =
      p.rows.length + breaks width newline p.current.length text := by
  induction text generalizing p with
  | nil => rfl
  | cons c text ih =>
    rw [List.foldl_cons, ih, Page.put, breaks]
    by_cases hc : c = newline
    · rw [if_pos hc, if_pos hc, rows_break, List.length_append]
      show p.rows.length + 1 + breaks width newline 0 text = _
      omega
    · rw [if_neg hc, if_neg hc]
      by_cases hfull : p.current.length = width
      · rw [if_pos hfull, if_pos hfull, rows_length, rows_length]
        show p.rows.length + 1 + breaks width newline 1 text = _
        rw [rows_length]
        omega
      · rw [if_neg hfull, if_neg hfull, rows_length, rows_length]
        show p.finished.length + 1 + breaks width newline (p.current ++ [c]).length text = _
        rw [List.length_append, List.length_singleton]

theorem rows_getD_break (p : Page α) (i : Nat) : p.break.rows.getD i [] = p.rows.getD i [] := by
  rw [rows_break]
  by_cases hlt : i < p.rows.length
  · rw [List.getD_append _ _ _ _ hlt]
  · rw [List.getD_append_right _ _ _ _ (by omega), List.getD_eq_default p.rows _ (by omega)]
    cases i - p.rows.length <;> rfl

theorem rows_getD_empty (i : Nat) : (Page.empty : Page α).rows.getD i [] = [] := by
  cases i <;> rfl

theorem rows_getD_last (p : Page α) {i : Nat} (hi : i + 1 = p.rows.length) :
    p.rows.getD i [] = p.current := by
  rw [rows_length] at hi
  rw [Page.rows, List.getD_append_right _ _ _ _ (by omega), show i - p.finished.length = 0 by omega]
  rfl

theorem rows_getD_append (p : Page α) (c : α) {i : Nat} (hi : i + 1 ≠ p.rows.length) :
    (p.append c).rows.getD i [] = p.rows.getD i [] := by
  rw [rows_length] at hi
  by_cases hlt : i < p.finished.length
  · rw [Page.rows, Page.rows, List.getD_append _ _ _ _ hlt]
    exact List.getD_append _ _ _ _ hlt
  · rw [List.getD_eq_default, List.getD_eq_default]
    · rw [rows_length]
      omega
    · rw [rows_length]
      show p.finished.length + 1 ≤ i
      omega

/-- A text that fits in one row. -/
theorem layout_of_short [DecidableEq α] {width : Nat} {newline : α} {text : List α}
    (hlen : text.length ≤ width) (hline : newline ∉ text) : layout width newline text = [text] := by
  have hfold : ∀ (rest current : List α), (current ++ rest).length ≤ width → newline ∉ rest →
      rest.foldl (Page.put width newline) ⟨[], current⟩ = ⟨[], current ++ rest⟩ := by
    intro rest
    induction rest with
    | nil =>
      intro current _ _
      rw [List.append_nil]
      rfl
    | cons c rest ih =>
      intro current hlen hline
      have hc : c ≠ newline := fun heq => hline (heq ▸ List.mem_cons_self)
      rw [List.length_append, List.length_cons] at hlen
      have hroom : current.length ≠ width := by omega
      have hput : Page.put width newline ⟨[], current⟩ c = ⟨[], current ++ [c]⟩ := by
        rw [Page.put, if_neg hc, if_neg hroom]
        rfl
      have hrest := ih (current ++ [c]) (by simp only [List.length_append, List.length_singleton]; omega)
        (fun hmem => hline (List.mem_cons_of_mem c hmem))
      rw [List.foldl_cons, hput, hrest, List.append_assoc]
      rfl
  rw [layout, Page.empty, hfold text [] hlen hline]
  rfl

theorem window_length (h : Nat) (rows : List (List α)) : (window h rows).length = h := by
  simp only [window, List.length_append, List.length_drop, List.length_replicate]
  omega

/-- Row `r` of the window, where the page has one. -/
theorem window_getD {h r : Nat} (rows : List (List α)) (hr : r < h) :
    (window h rows).getD r [] = rows.getD (rows.length - h + r) [] := by
  rw [List.getD_eq_getElem?_getD, List.getD_eq_getElem?_getD, window]
  by_cases hlt : r < (rows.drop (rows.length - h)).length
  · rw [List.getElem?_append_left hlt, List.getElem?_drop]
  · rw [List.getElem?_append_right (by omega)]
    rw [List.length_drop] at hlt ⊢
    rw [List.getElem?_replicate, if_pos (by omega), List.getElem?_eq_none (by omega)]
    rfl

/-- A window is determined by its rows. -/
theorem eq_window {h : Nat} {rows : List (List α)} (f : Nat → List α)
    (hf : ∀ r < h, f r = rows.getD (rows.length - h + r) []) :
    (List.range h).map f = window h rows := by
  apply List.ext_getElem
  · rw [List.length_map, List.length_range, window_length]
  · intro r h1 h2
    rw [List.length_map, List.length_range] at h1
    rw [List.getElem_map, List.getElem_range, hf r h1, ← window_getD rows h1,
      List.getD_eq_getElem _ _ h2]

end PaskakasaOS.Lib.TextLayout
