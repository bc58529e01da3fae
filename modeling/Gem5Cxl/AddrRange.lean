import Gem5Cxl.Basic
import Mathlib.Data.List.Sort
/-!
# AddrRange — address ranges (`base/addr_range.hh`)

Addresses are 64-bit words and all arithmetic on them wraps.  A range is `[start, end)`, with the interleaving masks and
the selected stripe; a range with no mask is not interleaved.
-/
namespace Gem5

abbrev Addr := BitVec 64

abbrev Byte := BitVec 8

structure AddrRange where
  start : Addr
  end_ : Addr
  masks : List Addr := []
  intlvMatch : Nat := 0
deriving DecidableEq, Repr

def popCount (a : Addr) : Nat := (List.range 64).countP (fun i => a.getLsbD i)

def ctz64 (a : Addr) : Nat := (List.range 64).findIdx (fun i => a.getLsbD i)

namespace AddrRange

def interleaved (r : AddrRange) : Bool := decide (0 < r.masks.length)

def size (r : AddrRange) : Addr := (r.end_ - r.start) >>> r.masks.length

def valid (r : AddrRange) : Bool := decide (r.start ≤ r.end_)

/-- `AddrRange::granularity`.  The masks are combined in an `int`. -/
def granularity (r : AddrRange) : Addr :=
  if r.interleaved then
    let combinedMask : BitVec 32 := r.masks.foldl (fun c m => c ||| m.setWidth 32) 0
    1#64 <<< ctz64 (combinedMask.signExtend 64)
  else r.size

/-- The stripe an address selects: bit `i` is the parity of the address under mask `i`. -/
def sel (a : Addr) : List Addr → Nat
  | [] => 0
  | m :: ms => popCount (a &&& m) % 2 + 2 * sel a ms

def contains (r : AddrRange) (a : Addr) : Bool :=
  decide (r.start ≤ a) && decide (a < r.end_) && decide (sel a r.masks = r.intlvMatch)

def isSubset (s r : AddrRange) : Except Failure Bool :=
  if s.interleaved then .error (.panic "Cannot test subset of interleaved range")
  else if r.interleaved then
    .ok (r.contains s.start && r.contains (s.end_ - 1) && decide (s.size ≤ r.granularity))
  else .ok (decide (r.start ≤ s.start) && decide (s.end_ ≤ r.end_))

def mergesWith (s r : AddrRange) : Bool := r.start == s.start && r.end_ == s.end_ && r.masks == s.masks

def intersects (s r : AddrRange) : Except Failure Bool :=
  if s.start ≥ r.end_ ∨ s.end_ ≤ r.start then .ok false
  else if !s.interleaved && !r.interleaved then .ok true
  else if r.size = 1 then .ok (s.contains r.start)
  else if s.mergesWith r then .ok (s.intlvMatch == r.intlvMatch)
  else .error (.panic "Cannot test intersection")

def lt (r s : AddrRange) : Bool :=
  if r.start ≠ s.start then decide (r.start < s.start)
  else if r.interleaved && s.interleaved then decide (r.intlvMatch < s.intlvMatch)
  else r.interleaved

/-- `AddrRangeList::sort`, which is stable. -/
def sort (l : List AddrRange) : List AddrRange := l.insertionSort (fun r s => s.lt r = false)

theorem mem_sort {l : List AddrRange} {r : AddrRange} : r ∈ sort l ↔ r ∈ l := (List.perm_insertionSort _ l).mem_iff

theorem pairwise_sort {l : List AddrRange} (h : ∀ r ∈ l, r.masks = []) :
    (sort l).Pairwise (fun r s => r.start.toNat ≤ s.start.toNat) := by
  have hmap : (sort l).map (fun r => r.start.toNat) = (l.map fun r => r.start.toNat).insertionSort (· ≤ ·) := by
    refine List.map_insertionSort _ _ _ l fun r hr s hs => ?_
    have hint : r.interleaved = false ∧ s.interleaved = false := by
      simp only [interleaved, h r hr, h s hs, List.length_nil, Nat.lt_irrefl, decide_false, and_self]
    simp only [lt, hint.1, hint.2, Bool.and_false, Bool.false_eq_true, if_false]
    split_ifs with hne
    · rw [decide_eq_false_iff_not, BitVec.not_lt, BitVec.le_def]
    · rw [not_not.1 hne]
      exact ⟨fun _ => Nat.le_refl _, fun _ => rfl⟩
  have hsorted := List.pairwise_insertionSort (· ≤ ·) (l.map fun r => r.start.toNat)
  rwa [← hmap, List.pairwise_map] at hsorted

end AddrRange

def rangeSize (start size : Addr) : AddrRange := { start := start, end_ := start + size }

def rangeIn (start last : Addr) : AddrRange := { start := start, end_ := last + 1 }

theorem rangeSize_isSubset (a n b k : Addr) :
    (rangeSize a n).isSubset (rangeSize b k) = .ok (decide (b ≤ a) && decide (a + n ≤ b + k)) := rfl

theorem rangeSize_valid (a n : Addr) : (rangeSize a n).valid = decide (a ≤ a + n) := rfl

theorem rangeIn_contains (a b x : Addr) : (rangeIn a b).contains x = (decide (a ≤ x) && decide (x < b + 1)) :=
  Bool.and_true _

theorem offset_le_of_isSubset {a n b k : Addr} (hv : (rangeSize a n).valid = true)
    (h : (rangeSize a n).isSubset (rangeSize b k) = .ok true) : (a - b).toNat + n.toNat ≤ k.toNat := by
  rw [rangeSize_isSubset] at h
  simp only [Except.ok.injEq, Bool.and_eq_true, decide_eq_true_eq] at h
  rw [rangeSize_valid, decide_eq_true_eq] at hv
  obtain ⟨h1, h2⟩ := h
  rw [BitVec.le_def] at h1 h2 hv
  rw [BitVec.toNat_add] at h2 hv
  rw [BitVec.toNat_add] at h2
  rw [BitVec.toNat_sub]
  have ha := a.isLt
  have hn := n.isLt
  have hb := b.isLt
  have hk := k.isLt
  omega

end Gem5
