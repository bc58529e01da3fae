import Gem5Cxl.BridgeConfig
/-!
# BridgeDecode — what the window registers decode to (`dev/PciBridge2.cc`)

The PCI-PCI bridge decoding of the window registers, over natural numbers, against what the six decoders compute in C
integers.  The product in the prefetchable decoders is an `int`: from `0x800` on it is negative, and the sum loses `2^32`.
The limit's upper half is read into 16 bits.  Where the decoders are right is `windows_decode_iff`.
-/
namespace Gem5

open BitVec (toNat_add toNat_or toNat_setWidth toNat_shiftLeft)

namespace BridgeHeader

/-- The base of a window: the writable bits of the register, above the alignment of the window. -/
def windowBase (h : BridgeHeader) : Window → Nat
  | .memory => h.memoryBase.toNat / 16 * 2 ^ 20
  | .prefetchable => h.prefetchableMemoryBaseUpper.toNat * 2 ^ 32 + h.prefetchableMemoryBase.toNat / 16 * 2 ^ 20
  | .io => h.ioBaseUpper.toNat * 2 ^ 16 + h.ioBase.toNat / 16 * 2 ^ 12

def windowLimit (h : BridgeHeader) : Window → Nat
  | .memory => h.memoryLimit.toNat / 16 * 2 ^ 20 + (2 ^ 20 - 1)
  | .prefetchable =>
    h.prefetchableMemoryLimitUpper.toNat * 2 ^ 32 + h.prefetchableMemoryLimit.toNat / 16 * 2 ^ 20 + (2 ^ 20 - 1)
  | .io => h.ioLimitUpper.toNat * 2 ^ 16 + h.ioLimit.toNat / 16 * 2 ^ 12 + (2 ^ 12 - 1)

end BridgeHeader

namespace ConfigClass

/-! ## Fields of words -/

theorem toNat_megabytes (r : BitVec 16) : ((r >>> 4).setWidth 32 <<< 20).toNat = r.toNat / 16 * 2 ^ 20 := by
  have hr := r.isLt
  rw [toNat_shiftLeft, toNat_setWidth, BitVec.toNat_ushiftRight, Nat.shiftRight_eq_div_pow,
    Nat.shiftLeft_eq]
  omega

theorem megabytes_product (r : BitVec 16) :
    ((r >>> 4).setWidth 32 * 1048576#32) = (r >>> 4).setWidth 32 <<< 20 := by
  apply BitVec.eq_of_toNat_eq
  rw [BitVec.toNat_mul, toNat_shiftLeft, Nat.shiftLeft_eq]
  rfl

theorem toNat_signExtend_megabytes (r : BitVec 16) :
    (((r >>> 4).setWidth 32 * 1048576#32).signExtend 64).toNat =
      r.toNat / 16 * 2 ^ 20 + if 2 ^ 15 ≤ r.toNat then 2 ^ 64 - 2 ^ 32 else 0 := by
  have hr := r.isLt
  have hmsb : ((r >>> 4).setWidth 32 <<< 20).msb = decide (2 ^ 15 ≤ r.toNat) := by
    rw [BitVec.msb_eq_decide, toNat_megabytes]
    exact decide_eq_decide.2 (by omega)
  rw [megabytes_product, BitVec.toNat_signExtend, toNat_setWidth, toNat_megabytes, hmsb]
  simp only [decide_eq_true_eq]
  congr 1
  omega

theorem or_ones (a n : Nat) : a * 2 ^ n ||| (2 ^ n - 1) = a * 2 ^ n + (2 ^ n - 1) := by
  rw [Nat.mul_comm, ← Nat.two_pow_add_eq_or_of_lt (Nat.sub_lt (Nat.two_pow_pos n) Nat.one_pos)]

/-! ## The decoders -/

theorem toNat_getMemoryBase (c : ConfigClass) : c.getMemoryBase.toNat = c.storage1.windowBase .memory := by
  have hr := c.storage1.memoryBase.isLt
  rw [getMemoryBase, toNat_setWidth, toNat_megabytes, BridgeHeader.windowBase]
  omega

theorem toNat_getMemoryLimit (c : ConfigClass) : c.getMemoryLimit.toNat = c.storage1.windowLimit .memory := by
  have hr := c.storage1.memoryLimit.isLt
  have hor := or_ones (c.storage1.memoryLimit.toNat / 16) 20
  have hones : (0xFFFFF#32).toNat = 2 ^ 20 - 1 := rfl
  rw [getMemoryLimit, toNat_setWidth, toNat_or, toNat_megabytes, hones, hor, BridgeHeader.windowLimit]
  omega

theorem toNat_kilobytes (u : BitVec 16) (r : BitVec 8) :
    ((u.setWidth 32 <<< 16) + (r >>> 4).setWidth 32 * 4096#32).toNat = u.toNat * 2 ^ 16 + r.toNat / 16 * 2 ^ 12 := by
  have hu := u.isLt
  have hr := r.isLt
  rw [toNat_add, toNat_shiftLeft, BitVec.toNat_mul, toNat_setWidth, toNat_setWidth,
    BitVec.toNat_ushiftRight, Nat.shiftRight_eq_div_pow, Nat.shiftLeft_eq, BitVec.toNat_ofNat]
  omega

theorem toNat_getIOBase (c : ConfigClass) : c.getIOBase.toNat = c.storage1.windowBase .io := by
  have hu := c.storage1.ioBaseUpper.isLt
  have hr := c.storage1.ioBase.isLt
  rw [getIOBase, toNat_setWidth, toNat_kilobytes, BridgeHeader.windowBase]
  omega

theorem toNat_getIOLimit (c : ConfigClass) : c.getIOLimit.toNat = c.storage1.windowLimit .io := by
  have hu := c.storage1.ioLimitUpper.isLt
  have hr := c.storage1.ioLimit.isLt
  have hor := or_ones (c.storage1.ioLimitUpper.toNat * 2 ^ 4 + c.storage1.ioLimit.toNat / 16) 12
  have hsum : (c.storage1.ioLimitUpper.toNat * 2 ^ 4 + c.storage1.ioLimit.toNat / 16) * 2 ^ 12 =
      c.storage1.ioLimitUpper.toNat * 2 ^ 16 + c.storage1.ioLimit.toNat / 16 * 2 ^ 12 := by omega
  have hones : (0xFFF#32).toNat = 2 ^ 12 - 1 := rfl
  rw [hsum] at hor
  rw [getIOLimit, toNat_setWidth, toNat_or, toNat_kilobytes, hones, hor, BridgeHeader.windowLimit]
  omega

/-- **The prefetchable base** is right exactly below `0x8000`. -/
theorem getPrefetchableMemoryBase_iff (c : ConfigClass) :
    c.getPrefetchableMemoryBase.toNat = c.storage1.windowBase .prefetchable ↔
      c.storage1.prefetchableMemoryBase.toNat < 2 ^ 15 := by
  have hu := c.storage1.prefetchableMemoryBaseUpper.isLt
  have hr := c.storage1.prefetchableMemoryBase.isLt
  rw [getPrefetchableMemoryBase, toNat_add, toNat_shiftLeft, toNat_setWidth,
    toNat_signExtend_megabytes, Nat.shiftLeft_eq, BridgeHeader.windowBase]
  split <;> omega

theorem toNat_getPrefetchableMemoryLimit (c : ConfigClass) :
    c.getPrefetchableMemoryLimit.toNat =
      (c.storage1.prefetchableMemoryLimitUpper.toNat % 2 ^ 16 * 2 ^ 32 +
        (c.storage1.prefetchableMemoryLimit.toNat / 16 * 2 ^ 20 +
          if 2 ^ 15 ≤ c.storage1.prefetchableMemoryLimit.toNat then 2 ^ 64 - 2 ^ 32 else 0)) % 2 ^ 64 + (2 ^ 20 - 1) := by
  have hones : (0xFFFFF#64).toNat = 2 ^ 20 - 1 := rfl
  rw [getPrefetchableMemoryLimit, toNat_or, toNat_add, toNat_shiftLeft, toNat_setWidth,
    toNat_setWidth, toNat_signExtend_megabytes, Nat.shiftLeft_eq, hones]
  generalize c.storage1.prefetchableMemoryLimitUpper.toNat = u
  generalize c.storage1.prefetchableMemoryLimit.toNat = r
  -- the sum is a number of megabytes
  generalize hm : (u % 2 ^ 16 % 2 ^ 64 * 2 ^ 32 % 2 ^ 64 +
    (r / 16 * 2 ^ 20 + if 2 ^ 15 ≤ r then 2 ^ 64 - 2 ^ 32 else 0)) % 2 ^ 64 = m
  have haligned : m = m / 2 ^ 20 * 2 ^ 20 := by
    split at hm <;> omega
  have hor := or_ones (m / 2 ^ 20) 20
  rw [← haligned] at hor
  have hupper : u % 2 ^ 16 % 2 ^ 64 * 2 ^ 32 % 2 ^ 64 = u % 2 ^ 16 * 2 ^ 32 := by omega
  rw [hor, ← hm, hupper]

/-- **The prefetchable limit** is right exactly below `0x8000` and below `2^48`. -/
theorem getPrefetchableMemoryLimit_iff (c : ConfigClass) :
    c.getPrefetchableMemoryLimit.toNat = c.storage1.windowLimit .prefetchable ↔
      c.storage1.prefetchableMemoryLimit.toNat < 2 ^ 15 ∧ c.storage1.prefetchableMemoryLimitUpper.toNat < 2 ^ 16 := by
  have hu := c.storage1.prefetchableMemoryLimitUpper.isLt
  have hr := c.storage1.prefetchableMemoryLimit.isLt
  rw [toNat_getPrefetchableMemoryLimit, BridgeHeader.windowLimit]
  split <;> omega

/-- **The windows decode as those of a PCI-PCI bridge** exactly if both prefetchable registers are below `0x8000` and the
limit's upper half fits in 16 bits. -/
theorem windows_decode_iff (c : ConfigClass) :
    (∀ k, (c.base k).toNat = c.storage1.windowBase k ∧ (c.limit k).toNat = c.storage1.windowLimit k) ↔
      c.storage1.prefetchableMemoryBase.toNat < 2 ^ 15 ∧ c.storage1.prefetchableMemoryLimit.toNat < 2 ^ 15 ∧
        c.storage1.prefetchableMemoryLimitUpper.toNat < 2 ^ 16 := by
  rw [← getPrefetchableMemoryLimit_iff, ← getPrefetchableMemoryBase_iff]
  constructor
  · intro h
    exact h .prefetchable
  · intro h k
    cases k with
    | memory => exact ⟨c.toNat_getMemoryBase, c.toNat_getMemoryLimit⟩
    | prefetchable => exact h
    | io => exact ⟨c.toNat_getIOBase, c.toNat_getIOLimit⟩

/-- A prefetchable window from `0x180000000` on decodes from `0x80000000` on, and one up to `0x10000000FFFFF` up to
`0xFFFFF`. -/
theorem prefetchable_misdecoded :
    (∃ c : ConfigClass, c.getPrefetchableMemoryBase.toNat = 0x80000000 ∧
        c.storage1.windowBase .prefetchable = 0x180000000) ∧
      ∃ c : ConfigClass, c.getPrefetchableMemoryLimit.toNat = 0xFFFFF ∧
        c.storage1.windowLimit .prefetchable = 0x10000000FFFFF :=
  ⟨⟨{ storage1.prefetchableMemoryBase := 0x8000, storage1.prefetchableMemoryBaseUpper := 1 }, by decide⟩,
    ⟨{ storage1.prefetchableMemoryLimit := 0, storage1.prefetchableMemoryLimitUpper := 0x10000 }, by decide⟩⟩

end ConfigClass

end Gem5
