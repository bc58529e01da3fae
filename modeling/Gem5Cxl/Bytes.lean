import Mathlib.Data.BitVec
import Mathlib.Data.List.Basic
import Mathlib.Tactic.Ring
/-!
# Bytes — numbers as bytes, and memory read and written in blocks

`encode n v` is the `n` low bytes of a number, lowest first, and `decode` reads them back.  A memory is a function on
words; a block starts at an address and addresses wrap, so a block is at most as long as there are addresses.
-/
namespace Bytes

def encode : Nat → Nat → List (BitVec 8)
  | 0, _ => []
  | n + 1, v => BitVec.ofNat 8 v :: encode n (v / 256)

def decode : List (BitVec 8) → Nat
  | [] => 0
  | b :: bs => b.toNat + 256 * decode bs

@[simp] theorem length_encode (n v : Nat) : (encode n v).length = n := by
  induction n generalizing v with
  | zero => rfl
  | succ n ih => rw [encode, List.length_cons, ih]

theorem decode_encode (n v : Nat) : decode (encode n v) = v % 256 ^ n := by
  induction n generalizing v with
  | zero => rw [encode, decode, Nat.pow_zero, Nat.mod_one]
  | succ n ih =>
    have hlow : (BitVec.ofNat 8 v).toNat = v % 256 := BitVec.toNat_ofNat v 8
    rw [encode, decode, ih, hlow, Nat.pow_succ', Nat.mod_mul]

theorem decode_encode_of_lt {n v : Nat} (h : v < 256 ^ n) : decode (encode n v) = v := by
  rw [decode_encode, Nat.mod_eq_of_lt h]

theorem encode_decode (l : List (BitVec 8)) : encode l.length (decode l) = l := by
  induction l with
  | nil => rfl
  | cons b bs ih =>
    have hb := b.isLt
    have hlow : BitVec.ofNat 8 (b.toNat + 256 * decode bs) = b := by
      apply BitVec.eq_of_toNat_eq
      rw [BitVec.toNat_ofNat]
      omega
    have hdiv : (b.toNat + 256 * decode bs) / 256 = decode bs := by omega
    rw [List.length_cons, decode, encode, hlow, hdiv, ih]

theorem decode_lt (l : List (BitVec 8)) : decode l < 256 ^ l.length := by
  induction l with
  | nil => exact Nat.one_pos
  | cons b bs ih =>
    have hb := b.isLt
    rw [decode, List.length_cons, Nat.pow_succ]
    omega

/-! ## Records of one length, one after another -/

variable {α β : Type}

theorem length_flatMap_const {f : α → List β} {k : Nat} (hf : ∀ x, (f x).length = k) (l : List α) :
    (l.flatMap f).length = k * l.length := by
  induction l with
  | nil => rfl
  | cons x l ih =>
    rw [List.flatMap_cons, List.length_append, hf, ih, List.length_cons]
    ring

/-! ## Blocks of memory -/

variable {w : Nat}

def read (mem : BitVec w → β) (a : BitVec w) (n : Nat) : List β := (List.range n).map fun i => mem (a + BitVec.ofNat w i)

def write (mem : BitVec w → β) (a : BitVec w) (l : List β) : BitVec w → β := fun x => l[(x - a).toNat]?.getD (mem x)

@[simp] theorem length_read (mem : BitVec w → β) (a : BitVec w) (n : Nat) : (read mem a n).length = n := by simp [read]

theorem getElem?_read (mem : BitVec w → β) (a : BitVec w) {n i : Nat} (hi : i < n) :
    (read mem a n)[i]? = some (mem (a + BitVec.ofNat w i)) := by simp [read, hi]

theorem sub_start (a : BitVec w) {i : Nat} (hi : i < 2 ^ w) : (a + BitVec.ofNat w i - a).toNat = i := by
  rw [BitVec.add_comm, BitVec.add_sub_cancel, BitVec.toNat_ofNat, Nat.mod_eq_of_lt hi]

theorem start_add_sub (a x : BitVec w) : a + BitVec.ofNat w (x - a).toNat = x := by
  rw [BitVec.ofNat_toNat, BitVec.setWidth_eq, BitVec.add_comm, BitVec.sub_add_cancel]

theorem write_of_le (mem : BitVec w → β) {a x : BitVec w} {l : List β} (h : l.length ≤ (x - a).toNat) :
    write mem a l x = mem x := by
  rw [write, List.getElem?_eq_none h, Option.getD_none]

theorem write_add (mem : BitVec w → β) (a : BitVec w) {l : List β} {i : Nat} {b : β} (hl : l.length ≤ 2 ^ w)
    (hb : l[i]? = some b) : write mem a l (a + BitVec.ofNat w i) = b := by
  obtain ⟨hi, -⟩ := List.getElem?_eq_some_iff.1 hb
  rw [write, sub_start a (Nat.lt_of_lt_of_le hi hl), hb, Option.getD_some]

theorem read_eq_iff {mem mem' : BitVec w → β} {a : BitVec w} {n : Nat} :
    read mem' a n = read mem a n ↔ ∀ i < n, mem' (a + BitVec.ofNat w i) = mem (a + BitVec.ofNat w i) := by
  constructor
  · intro h i hi
    have hget := getElem?_read mem' a hi
    rw [h, getElem?_read mem a hi, Option.some.injEq] at hget
    exact hget.symm
  · exact fun h => List.map_congr_left fun i hi => h i (List.mem_range.1 hi)

section

variable (mem : BitVec w → β) (a : BitVec w)

theorem read_add (m n : Nat) :
    read mem a (m + n) = read mem a m ++ read mem (a + BitVec.ofNat w m) n := by
  rw [read, List.range_add, List.map_append, List.map_map]
  refine congrArg (read mem a m ++ ·) (List.map_congr_left fun i _ => ?_)
  rw [Function.comp_apply, BitVec.ofNat_add, BitVec.add_assoc]

theorem read_write_mid (l₁ l₂ l₃ : List β) (hl : (l₁ ++ l₂ ++ l₃).length ≤ 2 ^ w) :
    read (write mem a (l₁ ++ l₂ ++ l₃)) (a + BitVec.ofNat w l₁.length) l₂.length = l₂ := by
  refine List.ext_getElem? fun i => ?_
  by_cases hi : i < l₂.length
  · rw [getElem?_read _ _ hi, BitVec.add_assoc, ← BitVec.ofNat_add, List.getElem?_eq_getElem hi]
    refine congrArg some (write_add mem a hl ?_)
    rw [List.append_assoc, List.getElem?_append_right (by omega), Nat.add_sub_cancel_left, List.getElem?_append_left hi,
      List.getElem?_eq_getElem hi]
  · rw [List.getElem?_eq_none (by rw [length_read]; omega), List.getElem?_eq_none (by omega)]

theorem write_append (l l' : List β) :
    write (write mem (a + BitVec.ofNat w l.length) l') a l = write mem a (l ++ l') := by
  funext x
  have hi := (x - a).isLt
  simp only [write]
  by_cases hlt : (x - a).toNat < l.length
  · rw [List.getElem?_append_left hlt, List.getElem?_eq_getElem hlt, Option.getD_some, Option.getD_some]
  · have hle : l.length ≤ (x - a).toNat := Nat.le_of_not_lt hlt
    have hdist : (x - (a + BitVec.ofNat w l.length)).toNat = (x - a).toNat - l.length := by
      have hsub : x - (a + BitVec.ofNat w l.length) = x - a - BitVec.ofNat w l.length := by ring
      have hmod : l.length % 2 ^ w = l.length := Nat.mod_eq_of_lt (by omega)
      rw [hsub, BitVec.toNat_sub, BitVec.toNat_ofNat, hmod,
        show 2 ^ w - l.length + (x - a).toNat = (x - a).toNat - l.length + 2 ^ w by omega, Nat.add_mod_right]
      exact Nat.mod_eq_of_lt (by omega)
    rw [List.getElem?_append_right hle, List.getElem?_eq_none hle, Option.getD_none, hdist]

end

end Bytes
