import Gem5Cxl.Pmp
import Mathlib.Data.Nat.Bitwise
import Mathlib.Order.WellFounded
import Mathlib.Tactic.Ring
/-!
# PmpCheck — the check of an access against the table (`pmpCheck`)

The privileged architecture gives an access to the lowest-numbered active entry that matches one of its bytes, and that
entry must match them all.  The code passes over an entry that matches some of the bytes and goes on to one that matches
both ends, so it lets through accesses that the architecture denies; `pmpCheck_iff_spec` says which.
-/
namespace Gem5

inductive MmuMode where
  | read
  | write
  | execute
deriving DecidableEq, Repr

inductive PrivilegeMode where
  | user
  | supervisor
  | machine
deriving DecidableEq, Repr

inductive ExceptionCode where
  | loadAccess
  | storeAccess
  | instAccess
deriving DecidableEq, Repr

structure AddressFault where
  vaddr : Addr
  code : ExceptionCode
deriving DecidableEq, Repr

/-- What `pmpCheck` reads of a request.  A page table walk has no virtual address. -/
structure PmpRequest where
  vaddr : Option Addr
  paddr : Addr
  size : BitVec 32
deriving DecidableEq

namespace Pmp

def createAddrfault (vaddr : Addr) (mode : MmuMode) : AddressFault :=
  { vaddr, code := match mode with
    | .read => .loadAccess
    | .write => .storeAccess
    | .execute => .instAccess }

def grants (cfg : BitVec 8) : MmuMode → Bool
  | .read => decide (pmpRead &&& cfg ≠ 0)
  | .write => decide (pmpWrite &&& cfg ≠ 0)
  | .execute => decide (pmpExec &&& cfg ≠ 0)

def permits (cfg : BitVec 8) (mode : MmuMode) (pmode : PrivilegeMode) : Bool :=
  (decide (pmode = .machine) && !locked cfg) || grants cfg mode

variable {n : Nat}

def shouldCheckPMP (s : Pmp n) (pmode : PrivilegeMode) : Bool :=
  decide (s.numRules ≠ 0) && (decide (pmode ≠ .machine) || s.hasLockEntry)

def containsEnds (r : AddrRange) (req : PmpRequest) : Bool :=
  r.contains req.paddr && r.contains (req.paddr + req.size.setWidth 64 - 1)

/-- The loop over the entries.  `matchIndex` outlives its iteration. -/
def checkFrom (s : Pmp n) (req : PmpRequest) (mode : MmuMode) (pmode : PrivilegeMode) (fault : AddressFault) :
    List (Fin n) → Option (Fin n) → Option AddressFault
  | [], _ => if pmode = .machine then none else some fault
  | i :: is, matchIndex =>
    match if containsEnds (s.pmpTable i).pmpAddr req then some i else matchIndex with
    | some k =>
      if active (s.pmpTable k).pmpCfg then
        if permits (s.pmpTable k).pmpCfg mode pmode then none else some fault
      else checkFrom s req mode pmode fault is (some k)
    | none => checkFrom s req mode pmode fault is none

def pmpCheck (s : Pmp n) (req : PmpRequest) (mode : MmuMode) (pmode : PrivilegeMode) (vaddr : Addr) :
    Option AddressFault :=
  if s.shouldCheckPMP pmode then
    checkFrom s req mode pmode (createAddrfault (req.vaddr.getD vaddr) mode) (List.finRange n) none
  else none

/-! ## What the architecture says -/

def LowestZero (a t : Nat) : Prop := a.testBit t = false ∧ ∀ i < t, a.testBit i = true

/-- The region of the encodings, by the registers: a `NAPOT` register `y…y01…1` with `t` ones names the addresses
`y…y` followed by `t + 3` bits. -/
def InRegion (table : Fin n → PmpEntry) (i : Fin n) (a : Nat) : Prop :=
  let raw := (table i).rawAddr.toNat
  match pmpGetAField (table i).pmpCfg with
  | .off => False
  | .tor => 4 * (prevAddr table i).toNat ≤ a ∧ a < 4 * raw
  | .na4 => a / 4 = raw
  | .napot => ∃ t, LowestZero raw t ∧ a / 2 ^ (t + 3) = raw / 2 ^ (t + 1)

def byteAddr (req : PmpRequest) (k : Nat) : Nat := (req.paddr.toNat + k) % 2 ^ 64

def Touches (s : Pmp n) (req : PmpRequest) (i : Fin n) : Prop :=
  active (s.pmpTable i).pmpCfg = true ∧ ∃ k < req.size.toNat, InRegion s.pmpTable i (byteAddr req k)

def Covers (s : Pmp n) (req : PmpRequest) (i : Fin n) : Prop :=
  active (s.pmpTable i).pmpCfg = true ∧ ∀ k < req.size.toNat, InRegion s.pmpTable i (byteAddr req k)

def Lowest (P : Fin n → Prop) (e : Fin n) : Prop := P e ∧ ∀ j < e, ¬ P j

/-- The verdict of the lowest-numbered entry with `P`, which must have `Q`; without one, machine mode goes ahead. -/
def Verdict (P Q : Fin n → Prop) (s : Pmp n) (mode : MmuMode) (pmode : PrivilegeMode) : Prop :=
  (∃ e, Lowest P e ∧ Q e ∧ permits (s.pmpTable e).pmpCfg mode pmode = true) ∨ ((∀ e, ¬ P e) ∧ pmode = .machine)

/-- The access may proceed, by the privileged architecture. -/
def MayProceed (s : Pmp n) (req : PmpRequest) (mode : MmuMode) (pmode : PrivilegeMode) : Prop :=
  Verdict (Touches s req) (Covers s req) s mode pmode

/-! ## The ranges are the regions -/

theorem contains_plain (s e a : Addr) :
    ({ start := s, end_ := e } : AddrRange).contains a = true ↔ s.toNat ≤ a.toNat ∧ a.toNat < e.toNat := by
  simp [AddrRange.contains, AddrRange.sel, BitVec.le_def, BitVec.lt_def]

variable {a t : Nat} {table : Fin n → PmpEntry} {i e : Fin n} {s : Pmp n} {req : PmpRequest} {p : Fin n → Bool}

theorem LowestZero.unique {u : Nat} (ht : LowestZero a t) (hu : LowestZero a u) : t = u := by
  rcases Nat.lt_trichotomy t u with h | h | h
  · exact absurd (hu.2 t h) (by simp [ht.1])
  · exact h
  · exact absurd (ht.2 u h) (by simp [hu.1])

theorem LowestZero.le {w : Nat} (h : LowestZero a t) (ha : a < 2 ^ w) : t ≤ w := by
  by_contra hw
  have hbit : a.testBit w = false := Nat.testBit_lt_two_pow ha
  exact absurd (h.2 w (by omega)) (by simp [hbit])

theorem lowestZero_ctz64 {a : Addr} (ha : a.toNat < 2 ^ 54) : LowestZero a.toNat (ctz64 (~~~ a)) := by
  have hzero : a.getLsbD 54 = false := Nat.testBit_lt_two_pow ha
  obtain ⟨hlt, hat, hbelow⟩ := ctz64_spec (a := ~~~ a) (w := 54) (by omega) (by rw [BitVec.getLsbD_not, hzero]; rfl)
  constructor
  · rw [BitVec.getLsbD_not] at hat
    simpa [BitVec.getLsbD, hlt] using hat
  · intro i hi
    have := hbelow i hi
    rw [BitVec.getLsbD_not] at this
    simpa [BitVec.getLsbD, Nat.lt_trans hi hlt] using this

theorem shiftLeft_two_toNat {a : Addr} (ha : a.toNat < 2 ^ 54) : (a <<< 2).toNat = 4 * a.toNat := by
  rw [BitVec.toNat_shiftLeft, Nat.shiftLeft_eq, Nat.mod_eq_of_lt (by omega)]
  omega

theorem LowestZero.top_le (h : LowestZero a t) (ha : a < 2 ^ 54) : (a / 2 ^ (t + 1) + 1) * 2 ^ (t + 3) ≤ 2 ^ 57 := by
  have ht : t ≤ 54 := h.le ha
  have hsplit : 2 ^ (54 - t) * 2 ^ (t + 1) = 2 ^ 55 := by rw [← Nat.pow_add]; congr 1; omega
  have hlt : a / 2 ^ (t + 1) < 2 ^ (54 - t) := Nat.div_lt_of_lt_mul (by rw [Nat.mul_comm, hsplit]; omega)
  calc (a / 2 ^ (t + 1) + 1) * 2 ^ (t + 3) ≤ 2 ^ (54 - t) * 2 ^ (t + 3) := Nat.mul_le_mul_right _ hlt
    _ = 2 ^ 57 := by rw [← Nat.pow_add]; congr 1; omega

theorem pmpDecodeNapot_contains {raw : Addr} (hraw : raw.toNat < 2 ^ 54) (a : Addr) :
    (pmpDecodeNapot raw).contains a = true ↔
      ∃ t, LowestZero raw.toNat t ∧ a.toNat / 2 ^ (t + 3) = raw.toNat / 2 ^ (t + 1) := by
  have hz := lowestZero_ctz64 hraw
  rw [pmpDecodeNapot, if_neg (by rintro rfl; simp at hraw)]
  simp only
  generalize ctz64 (~~~ raw) = t at hz
  have ht : t ≤ 54 := hz.le hraw
  -- bit `t` of the register is zero, so the base is a multiple of the size
  have hhalf : raw.toNat / 2 ^ t = 2 * (raw.toNat / 2 ^ (t + 1)) := by
    have hbit := hz.1
    rw [Nat.testBit_eq_decide_div_mod_eq, decide_eq_false_iff_not] at hbit
    rw [Nat.pow_succ, ← Nat.div_div_eq_div_mul]
    omega
  have htop := hz.top_le hraw
  have hbase : (mbits raw 63 t <<< 2).toNat = raw.toNat / 2 ^ (t + 1) * 2 ^ (t + 3) := by
    have hmul : raw.toNat / 2 ^ t * 2 ^ t * 2 ^ 2 = raw.toNat / 2 ^ (t + 1) * 2 ^ (t + 3) := by
      rw [hhalf]
      ring
    rw [BitVec.toNat_shiftLeft, Nat.shiftLeft_eq, mbits_toNat raw (by omega), hmul, Nat.mod_eq_of_lt]
    rw [Nat.add_mul] at htop
    omega
  have hsize : (1#64 <<< (t + 3)).toNat = 2 ^ (t + 3) := by
    rw [BitVec.toNat_shiftLeft, Nat.shiftLeft_eq]
    have hlt : 2 ^ (t + 3) < 2 ^ 64 := Nat.pow_lt_pow_right (by decide) (by omega)
    simpa using Nat.mod_eq_of_lt hlt
  have hend : (mbits raw 63 t <<< 2 + 1#64 <<< (t + 3)).toNat = (raw.toNat / 2 ^ (t + 1) + 1) * 2 ^ (t + 3) := by
    rw [BitVec.toNat_add, hbase, hsize, Nat.mod_eq_of_lt, Nat.add_mul, Nat.one_mul]
    rw [Nat.add_mul] at htop
    omega
  rw [contains_plain, hbase, hend]
  constructor
  · rintro ⟨hlow, hhigh⟩
    exact ⟨t, hz, Nat.div_eq_of_lt_le hlow hhigh⟩
  · rintro ⟨u, hu, hdiv⟩
    obtain rfl := hz.unique hu
    rw [← hdiv]
    exact ⟨Nat.div_mul_le_self _ _, Nat.lt_mul_of_div_lt (Nat.lt_succ_self _) (Nat.two_pow_pos _)⟩

def RawBounded (table : Fin n → PmpEntry) : Prop := ∀ j, (table j).rawAddr.toNat < 2 ^ 54

theorem RawBounded.prevAddr (h : RawBounded table) (i : Fin n) : (Pmp.prevAddr table i).toNat < 2 ^ 54 := by
  unfold Pmp.prevAddr
  split
  · exact h _
  · simp

theorem rangeAt_contains (h : RawBounded table) (i : Fin n) (a : Addr) :
    (rangeAt table i).contains a = true ↔ InRegion table i a.toNat := by
  unfold rangeAt ruleRange InRegion
  have hraw := h i
  cases pmpGetAField (table i).pmpCfg with
  | off => simp [contains_plain]
  | tor => rw [contains_plain, shiftLeft_two_toNat (h.prevAddr i), shiftLeft_two_toNat hraw]
  | na4 =>
    have hend : ((table i).rawAddr <<< 2 + 4).toNat = 4 * (table i).rawAddr.toNat + 4 := by
      rw [BitVec.toNat_add, shiftLeft_two_toNat hraw]
      change (4 * (table i).rawAddr.toNat + 4) % 2 ^ 64 = _
      omega
    rw [contains_plain, shiftLeft_two_toNat hraw, hend]
    simp only
    omega
  | napot => exact pmpDecodeNapot_contains hraw a

theorem InRegion.lt (h : RawBounded table) (ha : InRegion table i a) : a < 2 ^ 57 := by
  unfold InRegion at ha
  have hraw := h i
  cases hf : pmpGetAField (table i).pmpCfg with
  | off => simp [hf] at ha
  | tor | na4 =>
    simp only [hf] at ha
    omega
  | napot =>
    simp only [hf] at ha
    obtain ⟨t, ht, hdiv⟩ := ha
    refine Nat.lt_of_lt_of_le ?_ (ht.top_le hraw)
    exact Nat.lt_mul_of_div_lt (by omega) (Nat.two_pow_pos _)

theorem InRegion.between {b c : Nat} (ha : InRegion table i a) (hc : InRegion table i c) (hab : a ≤ b) (hbc : b ≤ c) :
    InRegion table i b := by
  unfold InRegion at *
  cases hf : pmpGetAField (table i).pmpCfg with
  | off => simp [hf] at ha
  | tor | na4 =>
    simp only [hf] at *
    omega
  | napot =>
    simp only [hf] at *
    obtain ⟨t, ht, ha⟩ := ha
    obtain ⟨u, hu, hc⟩ := hc
    obtain rfl := ht.unique hu
    refine ⟨t, ht, Nat.le_antisymm ?_ ?_⟩
    · exact hc ▸ Nat.div_le_div_right hbc
    · exact ha ▸ Nat.div_le_div_right hab

/-! ## What the code tests -/

/-- An access whose two ends are in a region is in it whole: an access that wraps has no end in a region. -/
theorem containsEnds_iff (hi : Inv s) (hraw : RawBounded s.pmpTable) (hsize : 1 ≤ req.size.toNat) (i : Fin n) :
    containsEnds (s.pmpTable i).pmpAddr req = true ↔ ∀ k < req.size.toNat, InRegion s.pmpTable i (byteAddr req k) := by
  have hs := req.size.isLt
  have hp := req.paddr.isLt
  have hlast : (req.paddr + req.size.setWidth 64 - 1).toNat = byteAddr req (req.size.toNat - 1) := by
    rw [BitVec.toNat_sub, BitVec.toNat_add, BitVec.toNat_setWidth, byteAddr]
    change (2 ^ 64 - 1 + _) % 2 ^ 64 = _
    omega
  have hfirst : req.paddr.toNat = byteAddr req 0 := (Nat.mod_eq_of_lt hp).symm
  rw [containsEnds, Bool.and_eq_true, hi.synced, rangeAt_contains hraw, rangeAt_contains hraw, hlast, hfirst]
  constructor
  · rintro ⟨ha, hc⟩ k hk
    have hlow := ha.lt hraw
    refine ha.between hc ?_ ?_
    · unfold byteAddr at *
      omega
    · unfold byteAddr at *
      omega
  · intro h
    exact ⟨h 0 hsize, h _ (by omega)⟩

theorem containsEnds_iff_covers (hi : Inv s) (hraw : RawBounded s.pmpTable) (hsize : 1 ≤ req.size.toNat) (i : Fin n) :
    containsEnds (s.pmpTable i).pmpAddr req = true ↔ Covers s req i := by
  rw [containsEnds_iff hi hraw hsize, Covers]
  refine ⟨fun h => ⟨?_, h⟩, And.right⟩
  have hbyte := h 0 hsize
  by_contra hoff
  have hf : pmpGetAField (s.pmpTable i).pmpCfg = .off := by simpa [active] using hoff
  simp [InRegion, hf] at hbyte

theorem checkFrom_eq (mode : MmuMode) (pmode : PrivilegeMode) (fault : AddressFault)
    (hact : ∀ i, containsEnds (s.pmpTable i).pmpAddr req = true → active (s.pmpTable i).pmpCfg = true) :
    ∀ l : List (Fin n), checkFrom s req mode pmode fault l none = none ↔
      match l.find? fun i => containsEnds (s.pmpTable i).pmpAddr req with
      | some k => permits (s.pmpTable k).pmpCfg mode pmode = true
      | none => pmode = .machine
  | [] => by simp [checkFrom]
  | i :: l => by
    rw [checkFrom]
    by_cases h : containsEnds (s.pmpTable i).pmpAddr req = true
    · simp [h, hact i h]
    · simpa [h] using checkFrom_eq mode pmode fault hact l

theorem find?_finRange_eq_some : (List.finRange n).find? p = some e ↔ Lowest (fun i => p i = true) e := by
  rw [List.find?_eq_some_iff_getElem]
  constructor
  · rintro ⟨he, i, hi, rfl, hbelow⟩
    refine ⟨he, fun j hj => ?_⟩
    simpa using hbelow j.val (by simpa [Fin.lt_def] using hj)
  · rintro ⟨he, hbelow⟩
    refine ⟨he, e.val, by simp, by simp, fun j hj => ?_⟩
    simpa using hbelow ⟨j, by omega⟩ hj

theorem Lowest.unique {P : Fin n → Prop} {f : Fin n} (he : Lowest P e) (hf : Lowest P f) : e = f := by
  rcases lt_trichotomy e f with h | h | h
  · exact absurd he.1 (hf.2 e h)
  · exact h
  · exact absurd hf.1 (he.2 f h)

theorem verdict_find? {P : Fin n → Prop} (hp : ∀ i, p i = true ↔ P i) (s : Pmp n) (mode : MmuMode)
    (pmode : PrivilegeMode) : Verdict P P s mode pmode ↔
      match (List.finRange n).find? p with
      | some k => permits (s.pmpTable k).pmpCfg mode pmode = true
      | none => pmode = .machine := by
  obtain rfl : (fun i => p i = true) = P := funext fun i => propext (hp i)
  cases hfind : (List.finRange n).find? p with
  | some k =>
    have hk := find?_finRange_eq_some.1 hfind
    constructor
    · rintro (⟨e, he, -, hperm⟩ | ⟨hnone, -⟩)
      · exact he.unique hk ▸ hperm
      · exact absurd hk.1 (hnone k)
    · exact fun hperm => .inl ⟨k, hk, hk.1, hperm⟩
  | none =>
    have hnone : ∀ i, ¬ p i = true := by simpa using hfind
    constructor
    · rintro (⟨e, he, -⟩ | ⟨-, hm⟩)
      · exact absurd he.1 (hnone e)
      · exact hm
    · exact fun hm => .inr ⟨hnone, hm⟩

/-- **What the code decides by**: the lowest-numbered entry that has the whole access. -/
theorem pmpCheck_eq_none (hi : Inv s) (hraw : RawBounded s.pmpTable) (hact : ∃ j, active (s.pmpTable j).pmpCfg = true)
    (hsize : 1 ≤ req.size.toNat) (mode : MmuMode) (pmode : PrivilegeMode) (vaddr : Addr) :
    s.pmpCheck req mode pmode vaddr = none ↔ Verdict (Covers s req) (Covers s req) s mode pmode := by
  have hcov := containsEnds_iff_covers hi hraw hsize
  rw [verdict_find? hcov, pmpCheck]
  split
  · exact checkFrom_eq mode pmode _ (fun i h => ((hcov i).1 h).1) _
  · -- machine mode, and no entry is locked: whichever entry is found lets the access through
    rename_i hskip
    have hrules : s.numRules ≠ 0 := by
      obtain ⟨j, hj⟩ := hact
      rw [hi.counted.numRules]
      exact Finset.card_ne_zero_of_mem (Finset.mem_filter.2 ⟨Finset.mem_univ j, hj⟩)
    simp only [shouldCheckPMP, hrules, Bool.and_eq_true, Bool.or_eq_true, decide_eq_true_eq, ne_eq, not_false_eq_true,
      true_and, not_or, not_not] at hskip
    obtain ⟨hm, hlock⟩ := hskip
    refine iff_of_true rfl ?_
    cases (List.finRange n).find? fun i => containsEnds (s.pmpTable i).pmpAddr req with
    | some k =>
      have hk : locked (s.pmpTable k).pmpCfg = false := by
        by_contra hk
        exact hlock (hi.counted.hasLockEntry.2 ⟨k, by simpa using hk⟩)
      simp [permits, hm, hk]
    | none => exact hm

/-! ## Against the architecture -/

theorem Covers.touches (hsize : 1 ≤ req.size.toNat) (h : Covers s req i) :
    Touches s req i := ⟨h.1, 0, hsize, h.2 0 hsize⟩

def PartlyMatched (s : Pmp n) (req : PmpRequest) : Prop := ∃ e, Lowest (Touches s req) e ∧ ¬ Covers s req e

theorem exists_lowest {P : Fin n → Prop} (h : ∃ e, P e) : ∃ e, Lowest P e := by
  obtain ⟨e, he, hmin⟩ := wellFounded_lt.has_min {e | P e} h
  exact ⟨e, he, fun j hj hP => hmin j hP hj⟩

/-- Where the first entry matched has the whole access, or none has a byte of it, the two verdicts are one. -/
theorem verdict_eq_of_not_partlyMatched (hsize : 1 ≤ req.size.toNat) (h : ¬ PartlyMatched s req) (mode : MmuMode)
    (pmode : PrivilegeMode) : Verdict (Covers s req) (Covers s req) s mode pmode ↔ MayProceed s req mode pmode := by
  by_cases htouch : ∃ e, Touches s req e
  · obtain ⟨e, he⟩ := exists_lowest htouch
    have hcov : Covers s req e := by
      by_contra hc
      exact h ⟨e, he, hc⟩
    have he' : Lowest (Covers s req) e := ⟨hcov, fun j hj hc => he.2 j hj (hc.touches hsize)⟩
    constructor
    · rintro (⟨f, hf, -, hperm⟩ | ⟨hnone, -⟩)
      · obtain rfl := hf.unique he'
        exact .inl ⟨f, he, hcov, hperm⟩
      · exact absurd hcov (hnone e)
    · rintro (⟨f, hf, -, hperm⟩ | ⟨hnone, -⟩)
      · obtain rfl := hf.unique he
        exact .inl ⟨f, he', hcov, hperm⟩
      · exact absurd he.1 (hnone e)
  · have hnone : ∀ e, ¬ Touches s req e := fun e he => htouch ⟨e, he⟩
    constructor
    · rintro (⟨f, -, hf, -⟩ | ⟨-, hm⟩)
      · exact absurd (hf.touches hsize) (hnone f)
      · exact .inr ⟨hnone, hm⟩
    · rintro (⟨f, hf, -⟩ | ⟨-, hm⟩)
      · exact absurd hf.1 (hnone f)
      · exact .inr ⟨fun e he => hnone e (he.touches hsize), hm⟩

theorem PartlyMatched.denied (h : PartlyMatched s req) (mode : MmuMode) (pmode : PrivilegeMode) :
    ¬ MayProceed s req mode pmode := by
  obtain ⟨e, he, hc⟩ := h
  rintro (⟨f, hf, hcov, -⟩ | ⟨hnone, -⟩)
  · exact hc (he.unique hf ▸ hcov)
  · exact hnone e he.1

/-- **The check against the privileged architecture**, for every table the registers can hold.  The two differ exactly
on an access that the first entry matched has in part only, and that the entries with the whole access let through. -/
theorem pmpCheck_iff_spec (n : Nat) (calls : List Call) (req : PmpRequest) (mode : MmuMode) (pmode : PrivilegeMode)
    (vaddr : Addr) (hraw : RawBounded ((create n).run calls).pmpTable)
    (hact : ∃ j, active (((create n).run calls).pmpTable j).pmpCfg = true) (hsize : 1 ≤ req.size.toNat) :
    (((create n).run calls).pmpCheck req mode pmode vaddr = none ↔ MayProceed ((create n).run calls) req mode pmode) ↔
      ¬ (PartlyMatched ((create n).run calls) req ∧
        Verdict (Covers ((create n).run calls) req) (Covers ((create n).run calls) req) ((create n).run calls) mode pmode) := by
  rw [pmpCheck_eq_none ((inv_create n).run calls) hraw hact hsize]
  by_cases hp : PartlyMatched ((create n).run calls) req
  · simp only [hp, hp.denied mode pmode, iff_false, true_and]
  · simp only [hp, verdict_eq_of_not_partlyMatched hsize hp, false_and, not_false_eq_true]

/-- A locked `NA4` entry without permissions over `[0x1000, 0x1004)`, and a `TOR` entry that grants everything over
`[0x1000, 0x2000)`. -/
def guardedWord : List Call := [.updateAddr 0 0x400, .updateAddr 1 0x800, .updateCfg 0 0x90, .updateCfg 1 0x0f]

def wordAt : PmpRequest := { vaddr := none, paddr := 0x1000, size := 4 }

def doubleWordAt : PmpRequest := { vaddr := none, paddr := 0x1000, size := 8 }

theorem guardedWord_inRegion (a : Nat) :
    InRegion ((create 2).run guardedWord).pmpTable (Fin.mk 0 Nat.zero_lt_two) a ↔ a / 4 = 0x400 := by
  have hf : pmpGetAField (((create 2).run guardedWord).pmpTable (Fin.mk 0 Nat.zero_lt_two)).pmpCfg = .na4 := by decide
  have hraw : (((create 2).run guardedWord).pmpTable (Fin.mk 0 Nat.zero_lt_two)).rawAddr.toNat = 0x400 := by decide
  simp only [InRegion, hf, hraw]

theorem guardedWord_active :
    active (((create 2).run guardedWord).pmpTable (Fin.mk 0 Nat.zero_lt_two)).pmpCfg = true := by decide

theorem guardedWord_touches (req : PmpRequest) (hp : req.paddr = 0x1000) (hsize : 1 ≤ req.size.toNat) :
    Lowest (Touches ((create 2).run guardedWord) req) (Fin.mk 0 Nat.zero_lt_two) := by
  refine ⟨⟨guardedWord_active, 0, hsize, ?_⟩, fun j hj => absurd hj (Nat.not_lt_zero j.val)⟩
  rw [guardedWord_inRegion, byteAddr, hp]
  rfl

theorem pmpCheck_iff_spec_word :
    ((create 2).run guardedWord).pmpCheck wordAt .read .user 0 = none ↔
      MayProceed ((create 2).run guardedWord) wordAt .read .user := by
  refine (pmpCheck_iff_spec 2 guardedWord wordAt .read .user 0 (by unfold RawBounded; decide)
    ⟨_, guardedWord_active⟩ (by decide)).2 ?_
  rintro ⟨⟨e, he, hc⟩, -⟩
  obtain rfl := he.unique (guardedWord_touches wordAt rfl (by decide))
  refine hc ⟨guardedWord_active, fun k hk => ?_⟩
  have hk4 : k < 4 := hk
  rw [guardedWord_inRegion, byteAddr]
  change (0x1000 + k) % 2 ^ 64 / 4 = 0x400
  omega

/-- **A user read of a double word whose first half is locked away goes ahead**. -/
theorem pmpCheck_passes_partly_matched :
    ((create 2).run guardedWord).pmpCheck doubleWordAt .read .user 0 = none ∧
      ¬ MayProceed ((create 2).run guardedWord) doubleWordAt .read .user := by
  refine ⟨by decide, PartlyMatched.denied ⟨_, guardedWord_touches doubleWordAt rfl (by decide), fun hc => ?_⟩ _ _⟩
  have hbyte := hc.2 4 (by decide)
  rw [guardedWord_inRegion] at hbyte
  exact absurd hbyte (by decide)

end Pmp

end Gem5
