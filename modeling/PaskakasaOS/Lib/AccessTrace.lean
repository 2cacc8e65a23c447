import PaskakasaOS.Lib.ByteMemory

/-!
# Programs that read memory and gain regions

A run of such a program is the list of its accesses and its result, `none` while it
has none. An access reads bytes or grants a region, named by an address; which bytes
the granted regions make readable is a parameter. The rules below follow the sequence
of two programs.
-/
namespace PaskakasaOS.Lib.AccessTrace

open ByteMemory

inductive Access where
  | read (a n : Nat)
  | grant (v : Nat)
  deriving DecidableEq

structure Traced (α : Type*) where
  accesses : List Access
  result : Option α

namespace Traced

universe u

variable {α β : Type u}

/-- The program that does not go on. -/
def stop : Traced α := ⟨[], none⟩

/-- Read `k` bytes, the first of them the lowest. -/
def load (k : Nat) (m : Memory) (a : Nat) : Traced Nat := ⟨[.read a k], some (readLE k m a)⟩

def grant (v : Nat) : Traced Unit := ⟨[.grant v], some ()⟩

def andThen (t : Traced α) (f : α → Traced β) : Traced β :=
  match t.result with
  | none => ⟨t.accesses, none⟩
  | some x => ⟨t.accesses ++ (f x).accesses, (f x).result⟩

instance : Monad Traced where
  pure x := ⟨[], some x⟩
  bind := andThen

/-- The program with its accesses replaced by a note of `v`. -/
def noted (v : Nat) (t : Traced α) : Traced α := ⟨[.grant v], t.result⟩

end Traced

open Traced

/-! ## Accesses -/

/-- The grants after some accesses, the latest first. -/
def after : List Nat → List Access → List Nat
  | granted, [] => granted
  | granted, .read _ _ :: es => after granted es
  | granted, .grant v :: es => after (v :: granted) es

/-- Every byte is readable, by the grants so far, when it is read. -/
def Covered (ok : List Nat → Nat → Prop) : List Nat → List Access → Prop
  | _, [] => True
  | granted, .read a n :: es => (∀ b, a ≤ b → b < a + n → ok granted b) ∧ Covered ok granted es
  | granted, .grant v :: es => Covered ok (v :: granted) es

/-- Some access reads the byte. -/
def Touches (es : List Access) (b : Nat) : Prop :=
  ∃ a n, .read a n ∈ es ∧ a ≤ b ∧ b < a + n

def ReadOnly (es : List Access) : Prop := ∀ v, .grant v ∉ es

section Lists

variable {ok : List Nat → Nat → Prop} {granted : List Nat} {es fs : List Access} {a n b : Nat}

theorem covered_append :
    Covered ok granted (es ++ fs) ↔ Covered ok granted es ∧ Covered ok (after granted es) fs := by
  induction es generalizing granted with
  | nil => exact ⟨fun h => ⟨trivial, h⟩, fun h => h.2⟩
  | cons e es ih =>
    cases e with
    | read a n => exact (and_congr_right fun _ => ih).trans and_assoc.symm
    | grant v => exact ih

theorem ReadOnly.tail {e : Access} (h : ReadOnly (e :: es)) : ReadOnly es :=
  fun v hv => h v (List.mem_cons_of_mem e hv)

theorem ReadOnly.append (he : ReadOnly es) (hf : ReadOnly fs) : ReadOnly (es ++ fs) := by
  intro v hv
  rcases List.mem_append.mp hv with hv | hv
  · exact he v hv
  · exact hf v hv

theorem readOnly_nil : ReadOnly [] := fun _ hv => nomatch hv

theorem readOnly_read : ReadOnly [.read a n] := fun _ hv => nomatch List.mem_singleton.mp hv

theorem ReadOnly.after (h : ReadOnly es) : AccessTrace.after granted es = granted := by
  induction es with
  | nil => rfl
  | cons e es ih =>
    cases e with
    | read a n => exact ih h.tail
    | grant v => exact absurd List.mem_cons_self (h v)

theorem after_append :
    after granted (es ++ fs) = AccessTrace.after (after granted es) fs := by
  induction es generalizing granted with
  | nil => rfl
  | cons e es ih =>
    cases e with
    | read a n => exact ih
    | grant v => exact ih

theorem touches_nil : ¬ Touches [] b := fun ⟨_, _, hmem, _⟩ => nomatch hmem

theorem touches_cons_read :
    Touches (.read a n :: es) b ↔ (a ≤ b ∧ b < a + n) ∨ Touches es b := by
  constructor
  · rintro ⟨a', n', hmem, hb⟩
    rcases List.mem_cons.mp hmem with heq | hmem
    · cases heq
      exact Or.inl hb
    · exact Or.inr ⟨a', n', hmem, hb⟩
  · rintro (hb | ⟨a', n', hmem, hb⟩)
    · exact ⟨a, n, List.mem_cons_self, hb⟩
    · exact ⟨a', n', List.mem_cons_of_mem _ hmem, hb⟩

theorem touches_read : Touches [.read a n] b ↔ a ≤ b ∧ b < a + n :=
  touches_cons_read.trans (or_iff_left touches_nil)

theorem not_touches_grant {v : Nat} : ¬ Touches [.grant v] b :=
  fun ⟨_, _, hmem, _⟩ => nomatch List.mem_singleton.mp hmem

theorem touches_append : Touches (es ++ fs) b ↔ Touches es b ∨ Touches fs b := by
  simp only [Touches, List.mem_append, or_and_right, exists_or]

/-- Reads alone are covered when each byte they touch is readable. -/
theorem ReadOnly.covered_iff (h : ReadOnly es) :
    Covered ok granted es ↔ ∀ b, Touches es b → ok granted b := by
  induction es with
  | nil => exact ⟨fun _ b hb => absurd hb touches_nil, fun _ => trivial⟩
  | cons e es ih =>
    cases e with
    | read a n =>
      rw [Covered, ih h.tail]
      simp only [touches_cons_read, or_imp, forall_and, and_imp]
    | grant v => exact absurd List.mem_cons_self (h v)

/-- Where a grant takes nothing away, a covered byte is readable in the end. -/
theorem Covered.touched (hmore : ∀ granted v b, ok granted b → ok (v :: granted) b)
    (h : Covered ok granted es) (hb : Touches es b) : ok (AccessTrace.after granted es) b := by
  have hkeep : ∀ es granted b, ok granted b → ok (AccessTrace.after granted es) b := by
    intro es
    induction es with
    | nil => exact fun _ _ hb => hb
    | cons e es ih =>
      cases e with
      | read a n => exact ih
      | grant v => exact fun granted b hb => ih (v :: granted) b (hmore granted v b hb)
  induction es generalizing granted with
  | nil => exact absurd hb touches_nil
  | cons e es ih =>
    cases e with
    | read a n =>
      rcases touches_cons_read.mp hb with hbyte | hrest
      · exact hkeep es granted b (h.1 b hbyte.1 hbyte.2)
      · exact ih h.2 hrest
    | grant v =>
      obtain ⟨a, n, hmem, hbyte⟩ := hb
      rcases List.mem_cons.mp hmem with heq | hmem
      · cases heq
      · exact ih h ⟨a, n, hmem, hbyte⟩

end Lists

/-! ## Programs -/

section Programs

universe u

variable {α β : Type u} {ok : List Nat → Nat → Prop} {granted : List Nat} {t : Traced α}
  {f : α → Traced β} {m : Memory} {k a b : Nat}

theorem bind_none (h : t.result = none) : (t >>= f).accesses = t.accesses := by
  show (t.andThen f).accesses = _
  rw [andThen, h]

theorem bind_some {x : α} (h : t.result = some x) :
    (t >>= f).accesses = t.accesses ++ (f x).accesses := by
  show (t.andThen f).accesses = _
  rw [andThen, h]

theorem result_bind : (t >>= f).result = t.result.bind fun x => (f x).result := by
  show (t.andThen f).result = _
  rw [andThen]
  cases t.result <;> rfl

/-- Sequences of programs can be regrouped. -/
instance : LawfulMonad Traced := by
  refine LawfulMonad.mk' Traced ?_ ?_ ?_
  · intro α t
    show t.andThen pure = t
    rw [andThen]
    cases h : t.result with
    | none => exact congrArg (Traced.mk t.accesses) h.symm
    | some x =>
      show Traced.mk (t.accesses ++ []) (some x) = t
      rw [List.append_nil, ← h]
  · intro α β x f
    rfl
  · intro α β γ t f g
    show (t.andThen f).andThen g = t.andThen fun x => (f x).andThen g
    obtain ⟨accesses, result⟩ := t
    cases result with
    | none => rfl
    | some x =>
      simp only [andThen]
      cases (f x).result with
      | none => rfl
      | some y => exact congrArg (Traced.mk · (g y).result) (List.append_assoc ..)

theorem covered_bind : Covered ok granted (t >>= f).accesses ↔
    Covered ok granted t.accesses ∧
      ∀ x, t.result = some x → Covered ok (after granted t.accesses) (f x).accesses := by
  cases h : t.result with
  | none => simp [bind_none h]
  | some x => simp [bind_some h, covered_append]

theorem touches_bind : Touches (t >>= f).accesses b ↔
    Touches t.accesses b ∨ ∃ x, t.result = some x ∧ Touches (f x).accesses b := by
  cases h : t.result with
  | none => simp [bind_none h]
  | some x => simp [bind_some h, touches_append]

theorem readOnly_bind (ht : ReadOnly t.accesses) (hf : ∀ x, ReadOnly (f x).accesses) :
    ReadOnly (t >>= f).accesses := by
  cases h : t.result with
  | none =>
    rw [bind_none h]
    exact ht
  | some x =>
    rw [bind_some h]
    exact ht.append (hf x)

theorem ReadOnly.covered_bind (ht : ReadOnly t.accesses) :
    Covered ok granted (t >>= f).accesses ↔
      (∀ b, Touches t.accesses b → ok granted b) ∧
        ∀ x, t.result = some x → Covered ok granted (f x).accesses := by
  rw [AccessTrace.covered_bind, ht.covered_iff, ht.after]

theorem readOnly_pure (x : α) : ReadOnly (pure x : Traced α).accesses := readOnly_nil

theorem readOnly_load : ReadOnly (load k m a).accesses := readOnly_read

theorem touches_pure {x : α} : ¬ Touches (pure x : Traced α).accesses b := touches_nil

theorem touches_load : Touches (load k m a).accesses b ↔ a ≤ b ∧ b < a + k := touches_read

theorem covered_load_bind {γ : Type} {f : Nat → Traced γ} : Covered ok granted (load k m a >>= f).accesses ↔
    (∀ b, a ≤ b → b < a + k → ok granted b) ∧ Covered ok granted (f (readLE k m a)).accesses := by
  rw [readOnly_load.covered_bind]
  simp only [touches_load, and_imp]
  exact and_congr_right fun _ => ⟨fun h => h _ rfl, fun h x hx => Option.some.inj hx ▸ h⟩

theorem touches_load_bind {γ : Type} {f : Nat → Traced γ} : Touches (load k m a >>= f).accesses b ↔
    (a ≤ b ∧ b < a + k) ∨ Touches (f (readLE k m a)).accesses b := by
  rw [touches_bind, touches_load]
  simp [load]

theorem covered_grant_bind {γ : Type} {v : Nat} {f : Unit → Traced γ} :
    Covered ok granted (grant v >>= f).accesses ↔ Covered ok (v :: granted) (f ()).accesses :=
  Iff.rfl

end Programs

end PaskakasaOS.Lib.AccessTrace
