import Mathlib.Logic.Function.Iterate
import PaskakasaOS.Kernel.Utils.TerminalContents

/-!
# `printcount` and `scroll` one step at a time

A print under way is the list of the operations it has still to execute; an
operation that is a loop or a call leaves its own operations in its place. The
interrupt flag can be looked at between any two of them.
-/
namespace PaskakasaOS.Kernel.Utils.PrintSteps

open TextTerminal TerminalContents

inductive Op where
  | cli
  | sti
  | character (c : UInt8)
  | newRow
  | scrollFrom (y : Nat)
  | resetX
  | draw (c : UInt8)
  | store (c : UInt8)
  | grow
  | advance

/-- One operation, and what it leaves to do. -/
def exec (t : Console) : Op → Console × List Op
  | .cli => (cli t, [])
  | .sti => (sti t, [])
  | .character c =>
    if c = 0xa then (t, [.newRow, .resetX])
    else if t.x = t.width then (t, [.newRow, .resetX, .draw c, .store c, .grow, .advance])
    else (t, [.draw c, .store c, .grow, .advance])
  | .newRow =>
    if t.y + 1 = t.height then (t, [.cli, .scrollFrom 0, .sti]) else ({ t with y := t.y + 1 }, [])
  | .scrollFrom y => if y < t.height.toNat then (scrollRow t y, [.scrollFrom (y + 1)]) else (t, [])
  | .resetX => (resetX t, [])
  | .draw c => (printChar t c t.x t.y, [])
  | .store c => (store t c, [])
  | .grow => (grow t, [])
  | .advance => (advance t, [])

def next (s : Console × List Op) : Console × List Op :=
  match s.2 with
  | [] => s
  | op :: ops => ((exec s.1 op).1, (exec s.1 op).2 ++ ops)

theorem next_cons (t : Console) (op : Op) (ops : List Op) :
    next (t, op :: ops) = ((exec t op).1, (exec t op).2 ++ ops) := rfl

/-- The operations of `printcount`. -/
def printOps (string : List UInt8) : List Op := string.map .character

/-! ## The steps of a print make up `printcount` -/

def Steps (s s' : Console × List Op) : Prop := ∃ n, next^[n] s = s'

theorem Steps.refl (s : Console × List Op) : Steps s s := ⟨0, rfl⟩

theorem Steps.trans {s s' s'' : Console × List Op} (h : Steps s s') (h' : Steps s' s'') :
    Steps s s'' := by
  obtain ⟨n, rfl⟩ := h
  obtain ⟨n', rfl⟩ := h'
  exact ⟨n' + n, Function.iterate_add_apply next n' n s⟩

theorem Steps.head {s s' : Console × List Op} (h : Steps (next s) s') : Steps s s' :=
  Steps.trans ⟨1, rfl⟩ h

theorem scrollRow_height (t : Console) (y : Nat) : (scrollRow t y).height = t.height := by
  obtain ⟨row, draws, heq, _⟩ := scrollRow_spec t y
  rw [heq]

theorem steps_scrollFrom (k y : Nat) (t : Console) (ops : List Op) (hy : y + k = t.height.toNat) :
    Steps (t, .scrollFrom y :: ops) ((List.range' y k).foldl scrollRow t, ops) := by
  induction k generalizing y t with
  | zero =>
    apply Steps.head
    rw [next_cons, exec, if_neg (by omega)]
    exact Steps.refl _
  | succ k ih =>
    apply Steps.head
    rw [next_cons, exec, if_pos (by omega), List.range'_succ, List.foldl_cons]
    exact ih (y + 1) (scrollRow t y) (by rw [scrollRow_height]; omega)

theorem steps_newRow (t : Console) (ops : List Op) :
    Steps (t, .newRow :: ops) (newRow t, ops) := by
  apply Steps.head
  rw [next_cons, exec, TextTerminal.newRow]
  by_cases hbottom : t.y + 1 = t.height
  · rw [if_pos hbottom, if_pos hbottom]
    apply Steps.head
    have hloop := steps_scrollFrom t.height.toNat 0 (cli t) (.sti :: ops) (Nat.zero_add _)
    rw [← List.range_eq_range'] at hloop
    exact hloop.trans (Steps.head (Steps.refl _))
  · rw [if_neg hbottom, if_neg hbottom]
    exact Steps.refl _

theorem steps_character (t : Console) (c : UInt8) (ops : List Op) :
    Steps (t, .character c :: ops) (printCharacter t c, ops) := by
  have hplace : ∀ t : Console,
      Steps (t, .draw c :: .store c :: .grow :: .advance :: ops) (place t c, ops) :=
    fun t => ⟨4, rfl⟩
  have hbreak : ∀ ops, Steps (t, .newRow :: .resetX :: ops) (resetX (TextTerminal.newRow t), ops) :=
    fun ops => (steps_newRow t (.resetX :: ops)).trans (Steps.head (Steps.refl _))
  apply Steps.head
  rw [next_cons, exec, printCharacter]
  by_cases hc : c = 0xa
  · rw [if_pos hc, if_pos hc]
    exact hbreak ops
  · rw [if_neg hc, if_neg hc]
    by_cases hx : t.x = t.width
    · rw [if_pos hx, if_pos hx]
      exact (hbreak _).trans (hplace _)
    · rw [if_neg hx, if_neg hx]
      exact hplace t

/-- Left alone, a print ends in the state `printcount` computes. -/
theorem steps_printcount (string : List UInt8) (t : Console) :
    Steps (t, printOps string) (printcount t string, []) := by
  induction string generalizing t with
  | nil => exact Steps.refl _
  | cons c string ih => exact (steps_character t c (printOps string)).trans (ih _)

/-! ## Rows a text opens -/

/-- The rows a text opens on rows of `width` characters, from column `x` on. -/
def rowsOpened (width : UInt32) : UInt32 → List UInt8 → Nat
  | _, [] => 0
  | x, c :: string =>
    if c = 0xa then rowsOpened width 0 string + 1
    else if x = width then rowsOpened width 1 string + 1
    else rowsOpened width (x + 1) string

/-- The rows below the cursor. -/
def rowsBelow (t : Console) : Nat := (t.height - 1 - t.y).toNat

theorem rowsBelow_eq_zero_iff (t : Console) : rowsBelow t = 0 ↔ t.y + 1 = t.height := by
  have hzero : rowsBelow t = 0 ↔ t.height - 1 - t.y = 0 := by
    rw [← UInt32.toNat_inj]
    rfl
  rw [hzero]
  constructor
  · intro h
    grind
  · intro h
    rw [← h]
    grind

/-- One row further down there is one row less below. -/
theorem rowsBelow_succ {t : Console} (h : t.y + 1 ≠ t.height) :
    rowsBelow t = rowsBelow { t with y := t.y + 1 } + 1 := by
  have hpos : rowsBelow t ≠ 0 := fun hzero => h ((rowsBelow_eq_zero_iff t).mp hzero)
  have hstep : t.height - 1 - (t.y + 1) = t.height - 1 - t.y - 1 := by grind
  change (t.height - 1 - t.y).toNat ≠ 0 at hpos
  have hsub : (t.height - 1 - t.y - 1).toNat = (t.height - 1 - t.y).toNat - 1 := by
    apply UInt32.toNat_sub_of_le
    rw [UInt32.le_iff_toNat_le]
    exact Nat.pos_of_ne_zero hpos
  show (t.height - 1 - t.y).toNat = (t.height - 1 - (t.y + 1)).toNat + 1
  rw [hstep, hsub]
  omega

/-! ## The interrupt flag after a print -/

theorem scroll_flag (t : Console) : (scroll t).interruptFlag = true := rfl

theorem newRow_flag_of_set {t : Console} (h : t.interruptFlag = true) :
    (TextTerminal.newRow t).interruptFlag = true := by
  rw [TextTerminal.newRow]
  split
  · exact scroll_flag t
  · exact h

/-- Once set, the flag stays set on return. -/
theorem printcount_flag_of_set {t : Console} (h : t.interruptFlag = true) (string : List UInt8) :
    (printcount t string).interruptFlag = true := by
  induction string generalizing t with
  | nil => exact h
  | cons c string ih =>
    apply ih
    have hnew := newRow_flag_of_set h
    rw [printCharacter]
    split
    · exact hnew
    · split
      · exact hnew
      · exact h

/-- A print entered with the flag clear returns with it clear exactly when its
text opens no more rows than there are below the cursor. -/
theorem printcount_flag {t : Console} (h : t.interruptFlag = false) (string : List UInt8) :
    (printcount t string).interruptFlag = false ↔ rowsOpened t.width t.x string ≤ rowsBelow t := by
  induction string generalizing t with
  | nil => exact ⟨fun _ => Nat.zero_le _, fun _ => h⟩
  | cons c string ih =>
    -- moving on to a new row: either it scrolls, or there is one row less below
    have hopen : ∀ rest : Console → Console, (∀ u, (rest u).interruptFlag = u.interruptFlag) →
        (∀ u, rowsBelow (rest u) = rowsBelow u) → (∀ u, (rest u).width = u.width) →
        ((printcount (rest (TextTerminal.newRow t)) string).interruptFlag = false ↔
          rowsOpened t.width (rest (TextTerminal.newRow t)).x string + 1 ≤ rowsBelow t) := by
      intro rest hflag hbelow hwidth
      by_cases hbottom : t.y + 1 = t.height
      · have hscroll : TextTerminal.newRow t = scroll t := if_pos hbottom
        have hset := printcount_flag_of_set ((hflag (scroll t)).trans (scroll_flag t)) string
        rw [hscroll, hset, (rowsBelow_eq_zero_iff t).mpr hbottom]
        exact ⟨fun hf => Bool.noConfusion hf, fun hle => absurd hle (Nat.not_succ_le_zero _)⟩
      · have hmove : TextTerminal.newRow t = { t with y := t.y + 1 } := if_neg hbottom
        have hclear : (rest (TextTerminal.newRow t)).interruptFlag = false := by
          rw [hflag, hmove]
          exact h
        rw [ih hclear, hbelow, hwidth, hmove, rowsBelow_succ hbottom, Nat.add_le_add_iff_right]
    rw [printcount, List.foldl_cons, printCharacter, rowsOpened]
    by_cases hc : c = 0xa
    · rw [if_pos hc, if_pos hc]
      exact hopen resetX (fun _ => rfl) (fun _ => rfl) (fun _ => rfl)
    · rw [if_neg hc, if_neg hc]
      by_cases hx : t.x = t.width
      · rw [if_pos hx, if_pos hx]
        exact hopen (fun u => place (resetX u) c) (fun _ => rfl) (fun _ => rfl) (fun _ => rfl)
      · rw [if_neg hx, if_neg hx]
        exact ih (t := place t c) h

/-! ## The interrupt flag during a print -/

/-- The operations other than those of `scroll`. -/
def Plain : Op → Prop
  | .cli => False
  | .sti => False
  | .scrollFrom _ => False
  | _ => True

/-- The rows a list of operations opens, from column `x` on. -/
def opsRows (width : UInt32) : UInt32 → List Op → Nat
  | _, [] => 0
  | x, .character c :: ops =>
    if c = 0xa then opsRows width 0 ops + 1
    else if x = width then opsRows width 1 ops + 1
    else opsRows width (x + 1) ops
  | x, .newRow :: ops => opsRows width x ops + 1
  | _, .resetX :: ops => opsRows width 0 ops
  | x, .advance :: ops => opsRows width (x + 1) ops
  | x, _ :: ops => opsRows width x ops

theorem opsRows_printOps (width x : UInt32) (string : List UInt8) :
    opsRows width x (printOps string) = rowsOpened width x string := by
  induction string generalizing x with
  | nil => rfl
  | cons c string ih =>
    rw [printOps, List.map_cons, opsRows, rowsOpened]
    rw [printOps] at ih
    rw [ih, ih, ih]

/-- The operations under way do not reach `scroll`. -/
structure Quiet (s : Console × List Op) : Prop where
  plain : ∀ op ∈ s.2, Plain op
  room : opsRows s.1.width s.1.x s.2 ≤ rowsBelow s.1

theorem quiet_printOps {t : Console} {string : List UInt8}
    (h : rowsOpened t.width t.x string ≤ rowsBelow t) : Quiet (t, printOps string) where
  plain := by
    intro op hop
    obtain ⟨c, _, rfl⟩ := List.mem_map.mp hop
    trivial
  room := (opsRows_printOps _ _ _).trans_le h

/-- One operation away from `scroll` leaves the flag alone and stays away from it. -/
theorem Quiet.next {s : Console × List Op} (h : Quiet s) :
    Quiet (next s) ∧ (next s).1.interruptFlag = s.1.interruptFlag := by
  obtain ⟨t, ops⟩ := s
  cases ops with
  | nil => exact ⟨h, rfl⟩
  | cons op ops =>
    have hplain : Plain op := h.plain op List.mem_cons_self
    have hrest : ∀ o ∈ ops, Plain o := fun o ho => h.plain o (List.mem_cons_of_mem _ ho)
    have hroom : opsRows t.width t.x (op :: ops) ≤ rowsBelow t := h.room
    rw [next_cons]
    cases op with
    | cli => cases hplain
    | sti => cases hplain
    | scrollFrom y => cases hplain
    | character c =>
      rw [opsRows] at hroom
      rw [exec]
      by_cases hc : c = 0xa
      · rw [if_pos hc] at hroom ⊢
        refine ⟨⟨?_, hroom⟩, rfl⟩
        simpa [Plain] using hrest
      · rw [if_neg hc] at hroom ⊢
        by_cases hx : t.x = t.width
        · rw [if_pos hx] at hroom ⊢
          refine ⟨⟨?_, hroom⟩, rfl⟩
          simpa [Plain] using hrest
        · rw [if_neg hx] at hroom ⊢
          refine ⟨⟨?_, hroom⟩, rfl⟩
          simpa [Plain] using hrest
    | newRow =>
      rw [opsRows] at hroom
      have hbottom : t.y + 1 ≠ t.height := by
        intro hbottom
        rw [(rowsBelow_eq_zero_iff t).mpr hbottom] at hroom
        omega
      rw [rowsBelow_succ hbottom, Nat.add_le_add_iff_right] at hroom
      rw [exec, if_neg hbottom]
      exact ⟨⟨hrest, hroom⟩, rfl⟩
    | resetX => exact ⟨⟨hrest, hroom⟩, rfl⟩
    | draw c => exact ⟨⟨hrest, hroom⟩, rfl⟩
    | store c => exact ⟨⟨hrest, hroom⟩, rfl⟩
    | grow => exact ⟨⟨hrest, hroom⟩, rfl⟩
    | advance => exact ⟨⟨hrest, hroom⟩, rfl⟩

theorem Quiet.iterate {s : Console × List Op} (h : Quiet s) (n : Nat) :
    Quiet (PrintSteps.next^[n] s) ∧ (PrintSteps.next^[n] s).1.interruptFlag = s.1.interruptFlag := by
  induction n generalizing s with
  | zero => exact ⟨h, rfl⟩
  | succ n ih =>
    obtain ⟨hnext, hflag⟩ := h.next
    obtain ⟨hquiet, heq⟩ := ih hnext
    exact ⟨hquiet, heq.trans hflag⟩

/-- The flag stays clear at every step of a print exactly when its text opens no
more rows than there are below the cursor. -/
theorem flag_clear_iff {t : Console} (h : t.interruptFlag = false) (string : List UInt8) :
    (∀ n, (next^[n] (t, printOps string)).1.interruptFlag = false) ↔
      rowsOpened t.width t.x string ≤ rowsBelow t := by
  constructor
  · intro hclear
    obtain ⟨n, hn⟩ := steps_printcount string t
    rw [← printcount_flag h]
    have hend := hclear n
    rwa [hn] at hend
  · intro hroom n
    exact ((quiet_printOps hroom).iterate n).2.trans h

end PaskakasaOS.Kernel.Utils.PrintSteps
