import PaskakasaOS.Boot.Stage2

/-!
# The two copies of `memmove`

Kernel and loader each have a `memmove` for ranges that may overlap. Which way it
copies follows the order of the pointers, so that it never overwrites a byte of the
source that it has yet to read.
-/
namespace PaskakasaOS.Boot.LoaderMemmove

open Lib.ByteMemory Lib.ByteCopy
open Kernel.Utils.Mem (byteAt byteAt_eq copied_memmove)

/-- The destination holds what the source held before, and nothing else has changed. -/
def Moves (memmove : Memory → UInt64 → UInt64 → UInt64 → UInt64 × Memory) (m : Memory)
    (dst src size : UInt64) : Prop :=
  (∀ i < size.toNat, (memmove m dst src size).2 (dst.toNat + i) = m (src.toNat + i)) ∧
    ∀ a, a < dst.toNat ∨ dst.toNat + size.toNat ≤ a → (memmove m dst src size).2 a = m a

/-- The loader's copy has the same text. -/
theorem memmove_eq_kernel (m : Memory) (dst src size : UInt64) :
    Stage2.memmove m dst src size = Kernel.Utils.Mem.memmove m dst src size := rfl

/-- However the two ranges overlap, both copies move the bytes. -/
theorem memmove_moves (m : Memory) (dst src size : UInt64)
    (hdst : dst.toNat + size.toNat ≤ 2 ^ 64) (hsrc : src.toNat + size.toNat ≤ 2 ^ 64) :
    Moves Kernel.Utils.Mem.memmove m dst src size ∧ Moves Stage2.memmove m dst src size := by
  have hd : ∀ i < size.toNat, byteAt dst i = dst.toNat + i := fun i hi => byteAt_eq hdst hi
  have hs : ∀ i < size.toNat, byteAt src i = src.toNat + i := fun i hi => byteAt_eq hsrc hi
  have hkernel : Moves Kernel.Utils.Mem.memmove m dst src size :=
    (copied_memmove m hdst hsrc).range hd hs
  refine ⟨hkernel, ?_⟩
  unfold Moves
  rw [memmove_eq_kernel]
  exact hkernel

/-- Ranges that overlap by one byte. -/
theorem memmove_moves_overlap :
    Moves Kernel.Utils.Mem.memmove (fun a => UInt8.ofNat a) 0x1001 0x1000 2 ∧
      Moves Stage2.memmove (fun a => UInt8.ofNat a) 0x1001 0x1000 2 :=
  memmove_moves _ 0x1001 0x1000 2 (by decide) (by decide)

end PaskakasaOS.Boot.LoaderMemmove
