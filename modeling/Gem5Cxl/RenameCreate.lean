import Gem5Cxl.RenameHistory
import Mathlib.Data.List.FinRange
import Mathlib.Data.List.ProdSigma
import Mathlib.Tactic.Tauto
/-!
# RenameCreate — the state the CPU starts from (`cpu/o3/cpu.cc`)

The constructor walks over the threads and their architectural registers, and gives each the next physical register of its
class.  The maps it leaves are injective and disjoint from the free lists, and no register is lost.
-/
namespace Gem5
namespace Rename

variable {n : Nat}

/-- A state the CPU starts from: the maps are injective and disjoint from the free lists, which have no register twice,
and every physical register is in one of them. -/
structure Initial (numPhysRegs : RegClass → Nat) (s : Rename n) : Prop extends Fresh s where
  freeNodup : ∀ c, (s.freeLists c).Nodup
  injective : ∀ t u, ∀ a ∈ archRegs s.numArchRegs, ∀ b ∈ archRegs s.numArchRegs,
    s.lookup t a = s.lookup u b → t = u ∧ a = b
  disjoint : ∀ t, ∀ a ∈ archRegs s.numArchRegs, s.lookup t a ∉ s.freeLists a.cls
  covers : ∀ c, ∀ r ∈ initFreeList numPhysRegs c,
    r ∈ s.freeLists c ∨ ∃ t, ∃ a ∈ archRegs s.numArchRegs, s.lookup t a = r
  unpinned : ∀ r, s.numPinnedWrites r = 0

/-! ## The loop of the constructor -/

structure Assigned (numPhysRegs : RegClass → Nat) (done : Set (Fin n × RegId)) (s : Rename n) : Prop where
  freeClass : ∀ c, ∀ r ∈ s.freeLists c, r.cls = c
  freeNodup : ∀ c, (s.freeLists c).Nodup
  mapClass : ∀ k ∈ done, (s.lookup k.1 k.2).cls = k.2.cls
  injective : ∀ k ∈ done, ∀ k' ∈ done, s.lookup k.1 k.2 = s.lookup k'.1 k'.2 → k = k'
  disjoint : ∀ k ∈ done, s.lookup k.1 k.2 ∉ s.freeLists k.2.cls
  covers : ∀ c, ∀ r ∈ initFreeList numPhysRegs c, r ∈ s.freeLists c ∨ ∃ k ∈ done, s.lookup k.1 k.2 = r
  historyBuffer : ∀ t, s.historyBuffer t = []
  unpinned : ∀ r, s.numPinnedWrites r = 0

section Assigned

variable {numPhysRegs : RegClass → Nat} {done : Set (Fin n × RegId)} {s s' : Rename n} {k : Fin n × RegId}
  {r : PhysRegId}

/-- One round of the loop: the map of the register becomes the first register of its free list. -/
structure Taken (s : Rename n) (k : Fin n × RegId) (r : PhysRegId) (s' : Rename n) : Prop where
  lookup : ∀ k' : Fin n × RegId, s'.lookup k'.1 k'.2 = if k' = k then r else s.lookup k'.1 k'.2
  freeLists : s.freeLists = Function.update s'.freeLists k.2.cls (r :: s'.freeLists k.2.cls)
  numArchRegs : s'.numArchRegs = s.numArchRegs
  historyBuffer : s'.historyBuffer = s.historyBuffer
  numPinnedWrites : s'.numPinnedWrites = s.numPinnedWrites

theorem taken_of_ok {s₁ : Rename n} (hk : k.2 ∈ archRegs s.numArchRegs) (hg : s.getReg k.2.cls = .ok (s₁, r))
    (he : s₁.setEntry k.1 k.2 r = .ok s') : Taken s k r s' := by
  obtain ⟨hr, hi⟩ := mem_archRegs.1 hk
  obtain ⟨rest, hf, rfl⟩ := getReg_eq_ok.1 hg
  -- the register is renamed and in range, so `setEntry` came to its last branch
  obtain ⟨_, -, he⟩ := Run.bind_eq_ok.1 he
  rw [if_neg (by simp [hr])] at he
  obtain ⟨_, -, he⟩ := Run.bind_eq_ok.1 he
  rw [if_neg hi.ne] at he
  cases he
  constructor
  case lookup =>
    rintro ⟨u, b⟩
    rw [lookup_setMap hr]
    by_cases hu : u = k.1
    · subst hu
      by_cases hb : b = k.2
      · simp [hb]
      · rw [Function.update_self, Function.update_of_ne hb, if_neg (fun h => hb (congrArg Prod.snd h))]
        rfl
    · rw [Function.update_of_ne hu, if_neg (fun h => hu (congrArg Prod.fst h))]
      rfl
  case freeLists => simp [setMap, ← hf]
  all_goals rfl

theorem Taken.mem_freeLists (h : Taken s k r s') {c : RegClass} {x : PhysRegId} :
    x ∈ s.freeLists c ↔ (c = k.2.cls ∧ x = r) ∨ x ∈ s'.freeLists c := by
  rw [h.freeLists]
  by_cases hc : c = k.2.cls
  · subst hc
    simp
  · simp [hc]

theorem Taken.notMem (h : Taken s k r s') (hn : (s.freeLists k.2.cls).Nodup) : r ∉ s'.freeLists k.2.cls := by
  rw [h.freeLists, Function.update_self] at hn
  exact (List.nodup_cons.1 hn).1

theorem Assigned.taken (hs : Assigned numPhysRegs done s) (h : Taken s k r s') (hnew : k ∉ done) :
    Assigned numPhysRegs (insert k done) s' := by
  have hr : r ∈ s.freeLists k.2.cls := h.mem_freeLists.2 (.inl ⟨rfl, rfl⟩)
  have hself : s'.lookup k.1 k.2 = r := by rw [h.lookup, if_pos rfl]
  have hold : ∀ k' ∈ done, s'.lookup k'.1 k'.2 = s.lookup k'.1 k'.2 := by
    intro k' hk'
    rw [h.lookup, if_neg (ne_of_mem_of_not_mem hk' hnew)]
  have hfresh : ∀ k' ∈ done, s.lookup k'.1 k'.2 ≠ r := by
    rintro k' hk' rfl
    refine hs.disjoint k' hk' ?_
    rwa [← hs.mapClass k' hk', hs.freeClass _ _ hr]
  constructor
  case freeClass => exact fun c x hx => hs.freeClass c x (h.mem_freeLists.2 (.inr hx))
  case freeNodup =>
    intro c
    have hn := hs.freeNodup c
    rw [h.freeLists] at hn
    by_cases hc : c = k.2.cls
    · subst hc
      rw [Function.update_self] at hn
      exact (List.nodup_cons.1 hn).2
    · rwa [Function.update_of_ne hc] at hn
  case mapClass =>
    rintro k' (rfl | hk')
    · rw [hself]
      exact hs.freeClass _ _ hr
    · rw [hold k' hk']
      exact hs.mapClass k' hk'
  case injective =>
    rintro k₁ (rfl | h₁) k₂ (rfl | h₂) heq
    · rfl
    · rw [hself, hold k₂ h₂] at heq
      exact absurd heq.symm (hfresh k₂ h₂)
    · rw [hself, hold k₁ h₁] at heq
      exact absurd heq (hfresh k₁ h₁)
    · rw [hold k₁ h₁, hold k₂ h₂] at heq
      exact hs.injective k₁ h₁ k₂ h₂ heq
  case disjoint =>
    rintro k' (rfl | hk')
    · rw [hself]
      exact h.notMem (hs.freeNodup _)
    · rw [hold k' hk']
      exact fun hx => hs.disjoint k' hk' (h.mem_freeLists.2 (.inr hx))
  case covers =>
    intro c x hx
    rcases hs.covers c x hx with hf | ⟨k', hk', rfl⟩
    · rcases h.mem_freeLists.1 hf with ⟨-, rfl⟩ | hf'
      · exact .inr ⟨k, Set.mem_insert k done, hself⟩
      · exact .inl hf'
    · exact .inr ⟨k', Set.mem_insert_of_mem k hk', hold k' hk'⟩
  case historyBuffer =>
    rw [h.historyBuffer]
    exact hs.historyBuffer
  case unpinned =>
    rw [h.numPinnedWrites]
    exact hs.unpinned

/-- **The loop assigns every register it walks over**. -/
theorem Assigned.assignRegs : ∀ (ks : List (Fin n × RegId)) {done : Set (Fin n × RegId)} {s s' : Rename n},
    Assigned numPhysRegs done s → ks.Nodup → (∀ k ∈ ks, k ∉ done ∧ k.2 ∈ archRegs s.numArchRegs) →
    Rename.assignRegs s ks = .ok s' →
    Assigned numPhysRegs (done ∪ {k | k ∈ ks}) s' ∧ s'.numArchRegs = s.numArchRegs
  | [], done, s, s', hs, _, _, h => by
    cases h
    simpa using hs
  | k :: ks, done, s, s', hs, hn, hks, h => by
    obtain ⟨⟨s₁, r⟩, hg, h⟩ := Run.bind_eq_ok.1 h
    obtain ⟨s₂, he, h⟩ := Run.bind_eq_ok.1 h
    obtain ⟨hnotin, hn⟩ := List.nodup_cons.1 hn
    obtain ⟨hnew, hk⟩ := hks k List.mem_cons_self
    have htaken : Taken s k r s₂ := taken_of_ok hk hg he
    obtain ⟨hs', hnum⟩ := Assigned.assignRegs ks (hs.taken htaken hnew) hn (by
      intro k' hk'
      rw [htaken.numArchRegs]
      obtain ⟨hnew', harch⟩ := hks k' (List.mem_cons_of_mem k hk')
      refine ⟨?_, harch⟩
      rintro (rfl | hdone)
      · exact hnotin hk'
      · exact hnew' hdone) h
    refine ⟨?_, hnum.trans htaken.numArchRegs⟩
    have hset : done ∪ {x | x ∈ k :: ks} = insert k done ∪ {x | x ∈ ks} := by
      ext x
      simp only [Set.mem_union, Set.mem_insert_iff, Set.mem_ofPred_eq, List.mem_cons]
      tauto
    rwa [hset]

end Assigned

theorem archRegs_nodup (num : RegClass → Nat) : (archRegs num).Nodup := by
  refine List.nodup_flatMap.2 ⟨fun c _ => ?_, ?_⟩
  · exact List.Nodup.map (fun i j h => congrArg RegId.index h) List.nodup_range
  · refine List.Nodup.pairwise_of_forall_ne (by decide) (fun c _ c' _ hne => ?_)
    intro a ha ha'
    obtain ⟨i, -, rfl⟩ := List.mem_map.1 ha
    obtain ⟨j, -, heq⟩ := List.mem_map.1 ha'
    exact hne (congrArg RegId.cls heq).symm

theorem initFreeList_assigned (num numPhysRegs : RegClass → Nat) : Assigned (n := n) numPhysRegs ∅
    { numArchRegs := num, renameMap := fun _ _ => ⟨.invalid, 0⟩, freeLists := initFreeList numPhysRegs } where
  freeClass c r hr := by
    simp only [initFreeList] at hr
    split_ifs at hr
    · obtain ⟨i, -, rfl⟩ := List.mem_map.1 hr
      rfl
    · simp at hr
  freeNodup c := by
    simp only [initFreeList]
    split_ifs
    · exact List.Nodup.map (fun i j h => congrArg PhysRegId.index h) List.nodup_range
    · exact List.nodup_nil
  mapClass k hk := absurd hk (Set.notMem_empty k)
  injective k hk := absurd hk (Set.notMem_empty k)
  disjoint k hk := absurd hk (Set.notMem_empty k)
  covers c r hr := .inl hr
  historyBuffer _ := rfl
  unpinned _ := rfl

/-- **The constructor builds an initial state**. -/
theorem create_initial {num numPhysRegs : RegClass → Nat} {s : Rename n} (h : create n num numPhysRegs = .ok s) :
    Initial numPhysRegs s := by
  obtain ⟨_, -, h⟩ := Run.bind_eq_ok.1 h
  obtain ⟨_, -, h⟩ := Run.bind_eq_ok.1 h
  obtain ⟨hs, hnum⟩ := Assigned.assignRegs _ (initFreeList_assigned num numPhysRegs)
    (List.Nodup.product (List.nodup_finRange n) (archRegs_nodup num)) (by
      intro k hk
      exact ⟨Set.notMem_empty k, (List.mem_product.1 hk).2⟩) h
  have hmem : ∀ (t : Fin n), ∀ a ∈ archRegs s.numArchRegs,
      (t, a) ∈ (∅ : Set (Fin n × RegId)) ∪ {k | k ∈ List.product (List.finRange n) (archRegs num)} := by
    intro t a ha
    rw [hnum] at ha
    exact .inr (List.mem_product.2 ⟨List.mem_finRange t, ha⟩)
  constructor
  case toFresh => exact ⟨hs.freeClass, fun t a ha => hs.mapClass (t, a) (hmem t a ha), hs.historyBuffer⟩
  case freeNodup => exact hs.freeNodup
  case injective =>
    intro t u a ha b hb heq
    exact Prod.mk.injEq .. ▸ hs.injective (t, a) (hmem t a ha) (u, b) (hmem u b hb) heq
  case disjoint => exact fun t a ha => hs.disjoint (t, a) (hmem t a ha)
  case covers =>
    intro c r hr
    rcases hs.covers c r hr with hf | ⟨k, hk, hkr⟩
    · exact .inl hf
    · rcases hk with hk | hk
      · exact absurd hk (Set.notMem_empty k)
      · exact .inr ⟨k.1, k.2, by rw [hnum]; exact (List.mem_product.1 hk).2, hkr⟩
  case unpinned => exact hs.unpinned

def sampleArchRegs (c : RegClass) : Nat := if c = .int then 2 else 0

def samplePhysRegs (c : RegClass) : Nat := if c = .int then 8 else 0

def sampleWriter (seqNum : Nat) : RenameInst where
  seqNum := seqNum
  dests := [{ reg := ⟨.int, 0⟩ }, { reg := ⟨.int, 0⟩ }, { reg := ⟨.misc, 3⟩ }]
  numDestRegs c := if c = .int then 2 else 0
  counted := by decide

end Rename
end Gem5
