import Gem5Cxl.Bitfield
import Mathlib.Data.Fintype.Card
import Mathlib.Data.List.FinRange
/-!
# Pmp — the table of the physical memory protection unit (`arch/riscv/pmp.cc`)

An entry keeps its two registers and the range they select, which is what an access is checked against.  The range of a
`TOR` entry starts at the address register of the entry before it, so a write to one register can move the range of
another entry.  The two counts the check consults first are recomputed on every update.
-/
namespace Gem5

inductive PmpAmatch where
  | off
  | tor
  | na4
  | napot
deriving DecidableEq, Repr

structure PmpEntry where
  pmpAddr : AddrRange := { start := 0, end_ := 0 }
  rawAddr : Addr := 0
  pmpCfg : BitVec 8 := 0
deriving DecidableEq

structure Pmp (n : Nat) where
  pmpTable : Fin n → PmpEntry
  numRules : Nat
  hasLockEntry : Bool

namespace Pmp

def pmpRead : BitVec 8 := 1 <<< 0

def pmpWrite : BitVec 8 := 1 <<< 1

def pmpExec : BitVec 8 := 1 <<< 2

def pmpAMask : BitVec 8 := 3 <<< 3

def pmpLock : BitVec 8 := 1 <<< 7

def pmpGetAField (cfg : BitVec 8) : PmpAmatch :=
  match ((cfg >>> 3) &&& 3).toNat with
  | 0 => .off
  | 1 => .tor
  | 2 => .na4
  | _ => .napot

def active (cfg : BitVec 8) : Bool := decide (pmpGetAField cfg ≠ .off)

def locked (cfg : BitVec 8) : Bool := decide (cfg &&& pmpLock ≠ 0)

def pmpDecodeNapot (pmpaddr : Addr) : AddrRange :=
  if pmpaddr = BitVec.allOnes 64 then { start := 0, end_ := BitVec.allOnes 64 }
  else
    let t1 := ctz64 (~~~ pmpaddr)
    let range := 1#64 <<< (t1 + 3)
    let base := mbits pmpaddr 63 t1 <<< 2
    { start := base, end_ := base + range }

def ruleRange (prevAddr thisAddr : Addr) (thisCfg : BitVec 8) : AddrRange :=
  match pmpGetAField thisCfg with
  | .off => { start := 0, end_ := 0 }
  | .tor => { start := prevAddr <<< 2, end_ := thisAddr <<< 2 }
  | .na4 => { start := thisAddr <<< 2, end_ := (thisAddr <<< 2) + 4 }
  | .napot => pmpDecodeNapot thisAddr

variable {n : Nat}

def prevAddr (table : Fin n → PmpEntry) (i : Fin n) : Addr :=
  if 1 ≤ i.val then (table ⟨i.val - 1, Nat.lt_of_le_of_lt (Nat.sub_le i.val 1) i.isLt⟩).rawAddr else 0

def rangeAt (table : Fin n → PmpEntry) (i : Fin n) : AddrRange :=
  ruleRange (prevAddr table i) (table i).rawAddr (table i).pmpCfg

/-- The loop at the end of `pmpUpdateRule`. -/
def countRules (table : Fin n → PmpEntry) : Pmp n :=
  { pmpTable := table
    numRules := (List.finRange n).countP fun j => active (table j).pmpCfg
    hasLockEntry := (List.finRange n).any fun j => locked (table j).pmpCfg }

def pmpUpdateRule (s : Pmp n) (i : Fin n) : Pmp n :=
  countRules (Function.update s.pmpTable i { s.pmpTable i with pmpAddr := rangeAt s.pmpTable i })

def create (n : Nat) : Pmp n := { pmpTable := fun _ => {}, numRules := 0, hasLockEntry := false }

def setCfg (s : Pmp n) (i : Fin n) (cfg : BitVec 8) : Pmp n :=
  { s with pmpTable := Function.update s.pmpTable i { s.pmpTable i with pmpCfg := cfg } }

def setRawAddr (s : Pmp n) (i : Fin n) (a : Addr) : Pmp n :=
  { s with pmpTable := Function.update s.pmpTable i { s.pmpTable i with rawAddr := a } }

def pmpUpdateCfg (s : Pmp n) (pmpIndex : Nat) (thisCfg : BitVec 8) : Bool × Pmp n :=
  if h : pmpIndex < n then
    if locked (s.pmpTable ⟨pmpIndex, h⟩).pmpCfg then (false, s)
    else (true, (s.setCfg ⟨pmpIndex, h⟩ thisCfg).pmpUpdateRule ⟨pmpIndex, h⟩)
  else (false, s)

/-- The entry after `i` is a locked `TOR` entry, so the address of entry `i` is its lower bound. -/
def lockedTorAfter (s : Pmp n) (i : Nat) : Bool :=
  if h : i + 1 < n then
    locked (s.pmpTable ⟨i + 1, h⟩).pmpCfg && decide (pmpGetAField (s.pmpTable ⟨i + 1, h⟩).pmpCfg = .tor)
  else false

def pmpUpdateAddr (s : Pmp n) (pmpIndex : Nat) (thisAddr : Addr) : Bool × Pmp n :=
  if h : pmpIndex < n then
    if locked (s.pmpTable ⟨pmpIndex, h⟩).pmpCfg then (false, s)
    else if s.lockedTorAfter pmpIndex then (false, s)
    else (true, (List.finRange n).foldl pmpUpdateRule (s.setRawAddr ⟨pmpIndex, h⟩ thisAddr))
  else (false, s)

def pmpReset (s : Pmp n) : Pmp n :=
  (List.finRange n).foldl
    (fun s i => (s.setCfg i ((s.pmpTable i).pmpCfg &&& ~~~ (pmpAMask ||| pmpLock))).pmpUpdateRule i) s

inductive Call where
  | updateCfg (pmpIndex : Nat) (thisCfg : BitVec 8)
  | updateAddr (pmpIndex : Nat) (thisAddr : Addr)
  | reset
deriving DecidableEq

def call (s : Pmp n) : Call → Pmp n
  | .updateCfg i cfg => (s.pmpUpdateCfg i cfg).2
  | .updateAddr i a => (s.pmpUpdateAddr i a).2
  | .reset => s.pmpReset

def run (s : Pmp n) (calls : List Call) : Pmp n := calls.foldl call s

/-! ## The range of every entry is the one its registers select -/

structure Counted (s : Pmp n) : Prop where
  numRules : s.numRules = (Finset.univ.filter fun j => active (s.pmpTable j).pmpCfg).card
  hasLockEntry : s.hasLockEntry = true ↔ ∃ j, locked (s.pmpTable j).pmpCfg

structure Inv (s : Pmp n) : Prop where
  synced : ∀ j, (s.pmpTable j).pmpAddr = rangeAt s.pmpTable j
  counted : Counted s

theorem counted_countRules (table : Fin n → PmpEntry) : Counted (countRules table) where
  numRules := by
    rw [countRules, Finset.card_def, Finset.filter_val, Fin.univ_def, Multiset.filter_coe, Multiset.coe_card,
      List.countP_eq_length_filter]
    simp
  hasLockEntry := by simp [countRules]

variable {i j : Fin n} {s : Pmp n}

/-- A range depends on the configuration of its entry and on two address registers only. -/
theorem rangeAt_congr {t u : Fin n → PmpEntry} (hraw : ∀ j, (u j).rawAddr = (t j).rawAddr)
    (hcfg : (u i).pmpCfg = (t i).pmpCfg) : rangeAt u i = rangeAt t i := by
  simp only [rangeAt, prevAddr, hraw, hcfg]

theorem pmpUpdateRule_registers (s : Pmp n) (i j : Fin n) :
    ((s.pmpUpdateRule i).pmpTable j).rawAddr = (s.pmpTable j).rawAddr ∧
      ((s.pmpUpdateRule i).pmpTable j).pmpCfg = (s.pmpTable j).pmpCfg := by
  by_cases h : j = i
  · subst h
    simp [pmpUpdateRule, countRules]
  · simp [pmpUpdateRule, countRules, h]

theorem pmpUpdateRule_rangeAt (s : Pmp n) (i j : Fin n) :
    rangeAt (s.pmpUpdateRule i).pmpTable j = rangeAt s.pmpTable j :=
  rangeAt_congr (fun k => (s.pmpUpdateRule_registers i k).1) (s.pmpUpdateRule_registers i j).2

theorem pmpUpdateRule_pmpAddr (s : Pmp n) (i j : Fin n) :
    ((s.pmpUpdateRule i).pmpTable j).pmpAddr = if j = i then rangeAt s.pmpTable j else (s.pmpTable j).pmpAddr := by
  by_cases h : j = i
  · subst h
    simp [pmpUpdateRule, countRules]
  · simp [pmpUpdateRule, countRules, h]

theorem counted_pmpUpdateRule (s : Pmp n) (i : Fin n) : Counted (s.pmpUpdateRule i) := counted_countRules _

theorem updateRules_spec :
    ∀ (l : List (Fin n)) (s : Pmp n) (j : Fin n),
      ((l.foldl pmpUpdateRule s).pmpTable j).rawAddr = (s.pmpTable j).rawAddr ∧
        ((l.foldl pmpUpdateRule s).pmpTable j).pmpCfg = (s.pmpTable j).pmpCfg ∧
        ((l.foldl pmpUpdateRule s).pmpTable j).pmpAddr =
          if j ∈ l then rangeAt s.pmpTable j else (s.pmpTable j).pmpAddr
  | [], _, _ => by simp
  | i :: l, s, j => by
    obtain ⟨hraw, hcfg, haddr⟩ := updateRules_spec l (s.pmpUpdateRule i) j
    refine ⟨hraw.trans (s.pmpUpdateRule_registers i j).1, hcfg.trans (s.pmpUpdateRule_registers i j).2, ?_⟩
    rw [List.foldl_cons, haddr, pmpUpdateRule_rangeAt, pmpUpdateRule_pmpAddr]
    by_cases hl : j ∈ l <;> by_cases hi : j = i <;> simp [hl, hi]

theorem counted_updateRules {l : List (Fin n)} (hl : l ≠ []) (s : Pmp n) : Counted (l.foldl pmpUpdateRule s) := by
  obtain ⟨l, i, rfl⟩ := List.eq_nil_or_concat' l |>.resolve_left hl
  rw [List.foldl_append]
  exact counted_pmpUpdateRule _ i

theorem finRange_ne_nil (i : Fin n) : List.finRange n ≠ [] := List.ne_nil_of_mem (List.mem_finRange i)

/-! ## One call -/

theorem inv_create (n : Nat) : Inv (create n) where
  synced := fun _ => by simp [create, rangeAt, ruleRange, pmpGetAField]
  counted := ⟨by simp [create, active, pmpGetAField], by simp [create, locked]⟩

theorem Inv.setCfg (h : Inv s) (i : Fin n) (cfg : BitVec 8) : Inv ((s.setCfg i cfg).pmpUpdateRule i) where
  synced := by
    intro j
    rw [pmpUpdateRule_rangeAt, pmpUpdateRule_pmpAddr]
    by_cases hj : j = i
    · rw [if_pos hj]
    · rw [if_neg hj]
      have hraw : ∀ k, ((s.setCfg i cfg).pmpTable k).rawAddr = (s.pmpTable k).rawAddr := by
        intro k
        by_cases hk : k = i
        · subst hk
          simp [Pmp.setCfg]
        · simp [Pmp.setCfg, hk]
      have hsame : (s.setCfg i cfg).pmpTable j = s.pmpTable j := by simp [Pmp.setCfg, hj]
      rw [rangeAt_congr hraw (congrArg PmpEntry.pmpCfg hsame), hsame]
      exact h.synced j
  counted := counted_pmpUpdateRule _ i

theorem setCfg_pmpTable_of_ne (s : Pmp n) (hj : j ≠ i) (cfg : BitVec 8) :
    ((s.setCfg i cfg).pmpUpdateRule i).pmpTable j = s.pmpTable j := by
  simp [pmpUpdateRule, countRules, Pmp.setCfg, hj]

theorem Inv.pmpUpdateCfg (h : Inv s) (i : Nat) (cfg : BitVec 8) : Inv (s.pmpUpdateCfg i cfg).2 := by
  unfold Pmp.pmpUpdateCfg
  split
  · split
    · exact h
    · exact h.setCfg _ cfg
  · exact h

theorem Inv.pmpUpdateAddr (h : Inv s) (i : Nat) (a : Addr) : Inv (s.pmpUpdateAddr i a).2 := by
  unfold Pmp.pmpUpdateAddr
  split
  · rename_i hi
    split
    · exact h
    · split
      · exact h
      · -- every rule is updated after the address register is written
        refine ⟨fun j => ?_, counted_updateRules (finRange_ne_nil ⟨i, hi⟩) _⟩
        rw [(updateRules_spec _ _ j).2.2, if_pos (List.mem_finRange j)]
        exact (rangeAt_congr (fun k => (updateRules_spec _ _ k).1) (updateRules_spec _ _ j).2.1).symm
  · exact h

theorem Inv.pmpReset (h : Inv s) : Inv s.pmpReset := by
  unfold Pmp.pmpReset
  generalize List.finRange n = l
  induction l generalizing s with
  | nil => exact h
  | cons i l ih => exact ih (h.setCfg i _)

theorem Inv.call (h : Inv s) : ∀ c, Inv (s.call c)
  | .updateCfg i cfg => h.pmpUpdateCfg i cfg
  | .updateAddr i a => h.pmpUpdateAddr i a
  | .reset => h.pmpReset

theorem Inv.run (h : Inv s) (calls : List Call) : Inv (s.run calls) := by
  induction calls generalizing s with
  | nil => exact h
  | cons c calls ih => exact ih (h.call c)

/-! ## A locked entry -/

theorem pmpUpdateCfg_locked (s : Pmp n) (i : Nat) (cfg : BitVec 8) (hj : locked (s.pmpTable j).pmpCfg = true) :
    (s.pmpUpdateCfg i cfg).2.pmpTable j = s.pmpTable j := by
  unfold pmpUpdateCfg
  split
  · rename_i hi
    split
    · rfl
    · rename_i hlock
      have hne : j ≠ ⟨i, hi⟩ := fun e => hlock (e ▸ hj)
      exact setCfg_pmpTable_of_ne s hne cfg
  · rfl

theorem setRawAddr_rangeAt (hj : locked (s.pmpTable j).pmpCfg = true) (hne : j ≠ i)
    (htor : s.lockedTorAfter i = false) (a : Addr) : rangeAt (s.setRawAddr i a).pmpTable j = rangeAt s.pmpTable j := by
  have hsame : (s.setRawAddr i a).pmpTable j = s.pmpTable j := by simp [setRawAddr, hne]
  rw [rangeAt, rangeAt, hsame]
  by_cases ht : pmpGetAField (s.pmpTable j).pmpCfg = .tor
  · -- then entry `i` is not the one before `j`
    have hprev : prevAddr (s.setRawAddr i a).pmpTable j = prevAddr s.pmpTable j := by
      unfold prevAddr
      split
      · rename_i h1
        have hji : (⟨j.val - 1, Nat.lt_of_le_of_lt (Nat.sub_le j.val 1) j.isLt⟩ : Fin n) ≠ i := by
          rintro rfl
          have hlt : j.val - 1 + 1 < n := by omega
          have hself : (⟨j.val - 1 + 1, hlt⟩ : Fin n) = j := Fin.ext (Nat.sub_add_cancel h1)
          simp [lockedTorAfter, hlt, hself, hj, ht] at htor
        simp [setRawAddr, hji]
      · rfl
    rw [hprev]
  · unfold ruleRange
    cases hf : pmpGetAField (s.pmpTable j).pmpCfg with
    | tor => exact absurd hf ht
    | off | na4 | napot => rfl

/-- An address write reaches neither a locked entry nor the lower bound of a locked `TOR` entry. -/
theorem Inv.pmpUpdateAddr_locked (h : Inv s) (i : Nat) (a : Addr) (hj : locked (s.pmpTable j).pmpCfg = true) :
    (s.pmpUpdateAddr i a).2.pmpTable j = s.pmpTable j := by
  unfold Pmp.pmpUpdateAddr
  split
  · rename_i hi
    split
    · rfl
    · rename_i hlock
      split
      · rfl
      · rename_i htor
        have hne : j ≠ ⟨i, hi⟩ := fun e => hlock (e ▸ hj)
        have hsame : (s.setRawAddr ⟨i, hi⟩ a).pmpTable j = s.pmpTable j := by simp [setRawAddr, hne]
        obtain ⟨hraw, hcfg, haddr⟩ := updateRules_spec (List.finRange n) (s.setRawAddr ⟨i, hi⟩ a) j
        rw [hsame] at hraw hcfg
        rw [if_pos (List.mem_finRange j), setRawAddr_rangeAt hj hne (by simpa using htor) a, ← h.synced j] at haddr
        cases hnew : ((List.finRange n).foldl pmpUpdateRule (s.setRawAddr ⟨i, hi⟩ a)).pmpTable j
        cases hold : s.pmpTable j
        rw [hnew, hold] at hraw hcfg haddr
        simp_all
  · rfl

theorem Inv.run_locked (h : Inv s) (hj : locked (s.pmpTable j).pmpCfg = true) (calls : List Call)
    (hc : .reset ∉ calls) : (s.run calls).pmpTable j = s.pmpTable j := by
  induction calls generalizing s with
  | nil => rfl
  | cons c calls ih =>
    obtain ⟨hc1, hc2⟩ := not_or.1 (List.mem_cons.not.1 hc)
    have hstep : (s.call c).pmpTable j = s.pmpTable j := by
      cases c with
      | updateCfg i cfg => exact pmpUpdateCfg_locked s i cfg hj
      | updateAddr i a => exact h.pmpUpdateAddr_locked i a hj
      | reset => exact absurd rfl hc1
    exact (ih (h.call c) (hstep ▸ hj) hc2).trans hstep

/-- **A locked entry is immutable**, its range included, until the table is reset; and in every state the counts are
those of the table. -/
theorem locked_entry_immutable (n : Nat) (calls : List Call) :
    Counted ((create n).run calls) ∧
      ∀ later, .reset ∉ later → ∀ j, locked (((create n).run calls).pmpTable j).pmpCfg = true →
        ((create n).run (calls ++ later)).pmpTable j = ((create n).run calls).pmpTable j := by
  have h : Inv ((create n).run calls) := (inv_create n).run calls
  refine ⟨h.counted, fun later hl j hj => ?_⟩
  rw [Pmp.run, List.foldl_append]
  exact h.run_locked hj later hl

def lockedTor : List Call := [.updateAddr 0 0x400, .updateAddr 1 0x800, .updateCfg 1 0x89]

theorem lockedTor_immutable :
    (((create 2).run (lockedTor ++ [.updateAddr 0 0, .updateCfg 1 0])).pmpTable (Fin.last 1)).pmpAddr =
      { start := 0x1000, end_ := 0x2000 } := by
  rw [(locked_entry_immutable 2 lockedTor).2 _ (by decide) _ (by decide)]
  decide

end Pmp

end Gem5
