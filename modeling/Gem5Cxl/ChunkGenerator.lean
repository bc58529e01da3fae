import Gem5Cxl.AddrRange
import Gem5Cxl.Bits
/-!
# ChunkGenerator — a region in aligned chunks (`base/chunk_generator.hh`)

The generator walks a region in 64-bit arithmetic, which wraps; it is at chunk `[cur, cut)` of `[start, hi)` when its
fields say so (`At`).  The constructor puts it there for the regions whose first chunk ends where 64 bits say it does
(`Fits`).
-/
namespace Gem5

open BitVec (eq_of_toNat_eq toNat_add toNat_ofNat)

def isPowerOf2 (n : Addr) : Bool := decide (n ≠ 0) && decide (n &&& (n - 1) = 0)

/-- `roundUp`; that `align` is a power of two is asserted by the callers. -/
def roundUp (val align : Addr) : Addr := (val + (align - 1)) &&& ~~~ (align - 1)

def minAddr (a b : Addr) : Addr := if b < a then b else a

structure ChunkGenerator where
  curAddr : Addr
  nextAddr : Addr
  curSize : Addr
  nextSize : Addr
  sizeLeft : Addr
  startAddr : Addr
  chunkSize : Addr
deriving DecidableEq, Repr

namespace ChunkGenerator

def firstEnd (startAddr totalSize chunkSize : Addr) : Addr :=
  if chunkSize = 0 then startAddr + totalSize
  else
    let nextAddr := roundUp startAddr chunkSize
    minAddr (if startAddr = nextAddr then nextAddr + chunkSize else nextAddr) (startAddr + totalSize)

def create (startAddr totalSize chunkSize : Addr) : Except Failure ChunkGenerator := do
  assertThat (decide (chunkSize = 0) || isPowerOf2 chunkSize)
  let nextAddr := firstEnd startAddr totalSize chunkSize
  let curSize := nextAddr - startAddr
  let sizeLeft := totalSize - curSize
  .ok { curAddr := startAddr, nextAddr, curSize, sizeLeft, nextSize := minAddr sizeLeft chunkSize, startAddr, chunkSize }

def addr (g : ChunkGenerator) : Addr := g.curAddr

def size (g : ChunkGenerator) : Addr := g.curSize

def complete (g : ChunkGenerator) : Addr := g.curAddr - g.startAddr

def last (g : ChunkGenerator) : Bool := decide (g.sizeLeft = 0)

/-- `next`; what it returns says whether there is another chunk. -/
def next (g : ChunkGenerator) : ChunkGenerator × Bool :=
  if g.last then ({ g with curSize := 0 }, false)
  else
    let sizeLeft := g.sizeLeft - g.nextSize
    ({ g with
      curAddr := g.nextAddr
      curSize := g.nextSize
      sizeLeft
      nextAddr := g.nextAddr + g.nextSize
      nextSize := minAddr sizeLeft g.chunkSize }, true)

/-! ## Where the generator is -/

structure At (g : ChunkGenerator) (line start hi cur : Nat) : Prop where
  startAddr : g.startAddr.toNat = start
  chunkSize : g.chunkSize.toNat = line
  curAddr : g.curAddr.toNat = cur
  nextAddr : g.nextAddr = BitVec.ofNat 64 (Bits.cut line hi cur)
  curSize : g.curSize.toNat = Bits.cut line hi cur - cur
  sizeLeft : g.sizeLeft.toNat = hi - Bits.cut line hi cur
  nextSize : g.nextSize.toNat = min (hi - Bits.cut line hi cur) line

theorem toNat_minAddr (a b : Addr) : (minAddr a b).toNat = min a.toNat b.toNat := by
  unfold minAddr
  split
  · rename_i h
    rw [BitVec.lt_def] at h
    omega
  · rename_i h
    rw [BitVec.lt_def] at h
    omega

variable {k cur hi line : Nat} {start size : Addr} {g : ChunkGenerator}

theorem ofNat_two_pow_sub_one (hk : k < 64) : BitVec.ofNat 64 (2 ^ k) - 1 = BitVec.ofNat 64 (2 ^ k - 1) := by
  have hpos : 0 < 2 ^ k := Nat.two_pow_pos k
  have hlt : 2 ^ k < 2 ^ 64 := Nat.pow_lt_pow_right (by decide) hk
  apply eq_of_toNat_eq
  rw [BitVec.toNat_sub, toNat_ofNat, toNat_ofNat]
  change (2 ^ 64 - 1 + 2 ^ k % 2 ^ 64) % 2 ^ 64 = _
  omega

theorem toNat_ofNat_two_pow (hk : k < 64) : (BitVec.ofNat 64 (2 ^ k)).toNat = 2 ^ k := by
  rw [toNat_ofNat]
  exact Nat.mod_eq_of_lt (Nat.pow_lt_pow_right (by decide) hk)

theorem isPowerOf2_ofNat (hk : k < 64) : isPowerOf2 (BitVec.ofNat 64 (2 ^ k)) = true := by
  have hne : BitVec.ofNat 64 (2 ^ k) ≠ 0 := by
    intro h
    have := congrArg BitVec.toNat h
    rw [toNat_ofNat_two_pow hk] at this
    exact absurd this (Nat.two_pow_pos k).ne'
  have hand : BitVec.ofNat 64 (2 ^ k) &&& (BitVec.ofNat 64 (2 ^ k) - 1) = 0 := by
    apply eq_of_toNat_eq
    rw [ofNat_two_pow_sub_one hk, Bits.toNat_and_lowMask, toNat_ofNat_two_pow hk, Nat.mod_self]
    rfl
  rw [isPowerOf2, decide_eq_true hne, decide_eq_true hand, Bool.and_self]

theorem roundUp_toNat (hk : k < 64) {a : Addr} (ha : a.toNat + 2 ^ k ≤ 2 ^ 64) :
    (roundUp a (BitVec.ofNat 64 (2 ^ k))).toNat = (a.toNat + (2 ^ k - 1)) / 2 ^ k * 2 ^ k := by
  have hpos : 0 < 2 ^ k := Nat.two_pow_pos k
  rw [roundUp, ofNat_two_pow_sub_one hk, Bits.toNat_and_not_lowMask, toNat_add, toNat_ofNat]
  congr 2
  omega

/-- Neither the end of the line that `start` is in nor that of the region is at the top of the address space, or both
are. -/
def Fits (k start size : Nat) : Prop :=
  0 < size ∧ (start + 2 ^ k < 2 ^ 64 ∧ start + size < 2 ^ 64 ∨ 2 ^ 64 ≤ start + 2 ^ k ∧ start + size = 2 ^ 64)

theorem Fits.le {start size : Nat} (h : Fits k start size) : start + size ≤ 2 ^ 64 := by
  rcases h.2 with h | h <;> omega

section

variable (hk : k < 64)
include hk

theorem lineEnd_toNat (hlow : start.toNat + 2 ^ k < 2 ^ 64) :
    (if start = roundUp start (BitVec.ofNat 64 (2 ^ k)) then
      roundUp start (BitVec.ofNat 64 (2 ^ k)) + BitVec.ofNat 64 (2 ^ k)
      else roundUp start (BitVec.ofNat 64 (2 ^ k))).toNat = (start.toNat / 2 ^ k + 1) * 2 ^ k := by
  have hpos : 0 < 2 ^ k := Nat.two_pow_pos k
  have hround := roundUp_toNat hk (a := start) (by omega)
  have hdiv : start.toNat / 2 ^ k * 2 ^ k + start.toNat % 2 ^ k = start.toNat := by rw [Nat.mul_comm, Nat.div_add_mod]
  have hmod : start.toNat % 2 ^ k < 2 ^ k := Nat.mod_lt _ hpos
  have hsucc : (start.toNat / 2 ^ k + 1) * 2 ^ k = start.toNat / 2 ^ k * 2 ^ k + 2 ^ k := by rw [Nat.add_mul, Nat.one_mul]
  by_cases hr : start.toNat % 2 ^ k = 0
  · have hq : (start.toNat + (2 ^ k - 1)) / 2 ^ k = start.toNat / 2 ^ k := by
      refine Nat.div_eq_of_lt_le ?_ ?_ <;> omega
    have heq : start = roundUp start (BitVec.ofNat 64 (2 ^ k)) := by
      apply eq_of_toNat_eq
      rw [hround, hq]
      omega
    rw [if_pos heq, ← heq, toNat_add, toNat_ofNat_two_pow hk, Nat.mod_eq_of_lt hlow]
    omega
  · have hq : (start.toNat + (2 ^ k - 1)) / 2 ^ k = start.toNat / 2 ^ k + 1 := by
      refine Nat.div_eq_of_lt_le (by omega) ?_
      rw [Nat.succ_mul]
      omega
    rw [if_neg, hround, hq]
    intro heq
    have := congrArg BitVec.toNat heq
    rw [hround, hq] at this
    omega

theorem chunkSize_ne_zero : BitVec.ofNat 64 (2 ^ k) ≠ 0 := by
  have := isPowerOf2_ofNat hk
  simp only [isPowerOf2, Bool.and_eq_true, decide_eq_true_eq] at this
  exact this.1

theorem cut_top {start : Nat} (hlt : start < 2 ^ 64) (htop : 2 ^ 64 ≤ start + 2 ^ k) :
    (start / 2 ^ k + 1) * 2 ^ k = 2 ^ 64 := by
  have hpow : 2 ^ (64 - k) * 2 ^ k = 2 ^ 64 := by rw [← Nat.pow_add]; congr 1; omega
  have hpos : 0 < 2 ^ (64 - k) := Nat.two_pow_pos _
  have hsub : (2 ^ (64 - k) - 1) * 2 ^ k + 2 ^ k = 2 ^ 64 := by
    rw [← Nat.succ_mul, Nat.succ_eq_add_one, Nat.sub_add_cancel hpos, hpow]
  have hq : start / 2 ^ k = 2 ^ (64 - k) - 1 := by
    refine Nat.div_eq_of_lt_le (by omega) ?_
    rw [Nat.succ_mul]
    omega
  rw [hq, Nat.sub_add_cancel hpos, hpow]

theorem lineEnd_top (htop : 2 ^ 64 ≤ start.toNat + 2 ^ k) :
    (if start = roundUp start (BitVec.ofNat 64 (2 ^ k)) then
      roundUp start (BitVec.ofNat 64 (2 ^ k)) + BitVec.ofNat 64 (2 ^ k)
      else roundUp start (BitVec.ofNat 64 (2 ^ k))).toNat = 0 := by
  have hpow : 2 ^ k < 2 ^ 64 := Nat.pow_lt_pow_right (by decide) hk
  have hpos : 0 < 2 ^ k := Nat.two_pow_pos k
  have hlt := start.isLt
  rcases Nat.eq_or_lt_of_le htop with heq | hgt
  · have hself : start = roundUp start (BitVec.ofNat 64 (2 ^ k)) := by
      apply eq_of_toNat_eq
      have hq := cut_top hk hlt htop
      rw [roundUp_toNat hk heq.ge]
      have hdiv : (start.toNat + (2 ^ k - 1)) / 2 ^ k = start.toNat / 2 ^ k := by
        have hmod : start.toNat % 2 ^ k < 2 ^ k := Nat.mod_lt _ hpos
        have hsum : start.toNat / 2 ^ k * 2 ^ k + start.toNat % 2 ^ k = start.toNat := by rw [Nat.mul_comm, Nat.div_add_mod]
        rw [Nat.add_mul, Nat.one_mul] at hq
        refine Nat.div_eq_of_lt_le (by omega) ?_
        rw [Nat.succ_mul]
        omega
      rw [hdiv]
      rw [Nat.add_mul, Nat.one_mul] at hq
      omega
    rw [if_pos hself, ← hself, toNat_add, toNat_ofNat_two_pow hk, ← heq, Nat.mod_self]
  · have hzero : (roundUp start (BitVec.ofNat 64 (2 ^ k))).toNat = 0 := by
      rw [roundUp, ofNat_two_pow_sub_one hk, Bits.toNat_and_not_lowMask, toNat_add, toNat_ofNat]
      have hsmall : (start.toNat + (2 ^ k - 1) % 2 ^ 64) % 2 ^ 64 < 2 ^ k := by omega
      rw [Nat.div_eq_of_lt hsmall, Nat.zero_mul]
    rw [if_neg, hzero]
    intro heq
    have := congrArg BitVec.toNat heq
    rw [hzero] at this
    omega

theorem firstEnd_eq (hfit : Fits k start.toNat size.toNat) :
    firstEnd start size (BitVec.ofNat 64 (2 ^ k)) =
      BitVec.ofNat 64 (Bits.cut (2 ^ k) (start.toNat + size.toNat) start.toNat) := by
  apply eq_of_toNat_eq
  rw [firstEnd, if_neg (chunkSize_ne_zero hk), toNat_minAddr, toNat_ofNat]
  rcases hfit.2 with ⟨hlow, hend⟩ | ⟨htop, hend⟩
  · have hle := Bits.cut_le (2 ^ k) (start.toNat + size.toNat) start.toNat
    rw [lineEnd_toNat hk hlow, toNat_add, Nat.mod_eq_of_lt hend, Nat.mod_eq_of_lt (by omega), Bits.cut, Nat.min_comm]
  · rw [toNat_add, hend, Bits.cut, cut_top hk start.isLt htop, Nat.min_self, Nat.mod_self, Nat.min_zero]

theorem create_at (hfit : Fits k start.toNat size.toNat) :
    ∃ g, create start size (BitVec.ofNat 64 (2 ^ k)) = .ok g ∧
      g.At (2 ^ k) start.toNat (start.toNat + size.toNat) start.toNat := by
  have hend := firstEnd_eq hk hfit
  have hsize := hfit.1
  have htop := hfit.le
  have hlt := Bits.lt_cut (Nat.two_pow_pos k) (by omega : start.toNat < start.toNat + size.toNat)
  have hle := Bits.cut_le (2 ^ k) (start.toNat + size.toNat) start.toNat
  generalize hc : Bits.cut (2 ^ k) (start.toNat + size.toNat) start.toNat = c at hend hlt hle
  have hcur : (firstEnd start size (BitVec.ofNat 64 (2 ^ k)) - start).toNat = c - start.toNat := by
    rw [hend, BitVec.toNat_sub, toNat_ofNat]
    omega
  have hleft : (size - (firstEnd start size (BitVec.ofNat 64 (2 ^ k)) - start)).toNat = start.toNat + size.toNat - c := by
    rw [BitVec.toNat_sub_of_le (by rw [BitVec.le_def]; omega), hcur]
    omega
  refine ⟨_, by simp only [create, isPowerOf2_ofNat hk, Bool.or_true, assertThat_true, Run.ok_bind]; rfl, ?_⟩
  refine ⟨rfl, toNat_ofNat_two_pow hk, rfl, ?_, ?_, ?_, ?_⟩
  · rw [hc, hend]
  · rw [hc, hcur]
  · rw [hc, hleft]
  · rw [hc, toNat_minAddr, hleft, toNat_ofNat_two_pow hk]

/-- A region that does not fit gets a first chunk up to the top of the address space. -/
theorem firstEnd_of_not_fits (hsize : 0 < size.toNat) (hle : start.toNat + size.toNat ≤ 2 ^ 64)
    (hfit : ¬ Fits k start.toNat size.toNat) : firstEnd start size (BitVec.ofNat 64 (2 ^ k)) = 0 := by
  apply eq_of_toNat_eq
  rw [firstEnd, if_neg (chunkSize_ne_zero hk), toNat_minAddr, toNat_add]
  change min _ _ = 0
  by_cases hend : start.toNat + size.toNat = 2 ^ 64
  · rw [hend, Nat.mod_self, Nat.min_zero]
  · have htop : 2 ^ 64 ≤ start.toNat + 2 ^ k := by
      by_contra hlow
      exact hfit ⟨hsize, .inl ⟨by omega, by omega⟩⟩
    rw [lineEnd_top hk htop, Nat.zero_min]

end

theorem At.last_iff {start : Nat} (h : g.At line start hi cur) : g.last = true ↔ Bits.cut line hi cur = hi := by
  have hle := Bits.cut_le line hi cur
  rw [last, decide_eq_true_eq, ← BitVec.toNat_inj, h.sizeLeft]
  change hi - Bits.cut line hi cur = 0 ↔ _
  omega

theorem At.next {start : Nat} (h : g.At line start hi cur) (hl : 0 < line) (hhi : hi ≤ 2 ^ 64)
    (hlt : Bits.cut line hi cur < hi) : g.next.1.At line start hi (Bits.cut line hi cur) := by
  have hlast : g.last = false := by
    rw [← Bool.not_eq_true, h.last_iff]
    omega
  have hcut := Bits.cut_cut hl hlt
  have hleft : (g.sizeLeft - g.nextSize).toNat = hi - Bits.cut line hi (Bits.cut line hi cur) := by
    rw [BitVec.toNat_sub_of_le (by rw [BitVec.le_def, h.sizeLeft, h.nextSize]; omega), h.sizeLeft, h.nextSize]
    omega
  simp only [ChunkGenerator.next, hlast, Bool.false_eq_true, if_false]
  refine ⟨h.startAddr, h.chunkSize, ?_, ?_, ?_, hleft, ?_⟩
  · rw [h.nextAddr, toNat_ofNat, Nat.mod_eq_of_lt (by omega)]
  · apply eq_of_toNat_eq
    rw [toNat_add, h.nextAddr, h.nextSize, toNat_ofNat, toNat_ofNat, hcut]
    omega
  · rw [h.nextSize]
    omega
  · rw [toNat_minAddr, hleft, h.chunkSize]

end ChunkGenerator

end Gem5
