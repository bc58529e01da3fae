import Gem5Cxl.RenameCreate
import Mathlib.Algebra.Order.BigOperators.Group.Finset
/-!
# RenameConserve — physical registers are conserved

Each physical register is on its free list, in one rename map, or replaced by one live entry of a history, and in one
place only.  A rename takes a register from the free list and hands the one it replaces to the history; a squash and a
commit give one of the two back.  What the stage owns is a multiset that no call changes.
-/
namespace Gem5

open Function (update update_of_ne update_self)

instance : Fintype RegClass where
  elems := {.int, .float, .vec, .vecElem, .vecPred, .mat, .cc, .misc, .invalid}
  complete c := by cases c <;> decide

namespace Rename

variable {n : Nat}

def free (s : Rename n) : Multiset PhysRegId := ∑ c, (s.freeLists c : Multiset PhysRegId)

/-- The registers a thread holds: those of its map, and those its history will give back. -/
def heldBy (s : Rename n) (t : Fin n) : Multiset PhysRegId :=
  UndoLog.held (archRegs s.numArchRegs).toFinset (s.lookup t) ((s.historyBuffer t).map RenameHistory.change)

def owned (s : Rename n) : Multiset PhysRegId := s.free + ∑ t, s.heldBy t

section Owned

variable {base : Fin n → RegId → PhysRegId} {s s' : Rename n} {t : Fin n} {d : DestReg} {e : RenameHistory}
  {h : List RenameHistory} {new : PhysRegId}

variable {c : RegClass}

theorem free_update {s s' : Rename n} {l : List PhysRegId} (hf : s'.freeLists = update s.freeLists c l) :
    s'.free + s.freeLists c = s.free + l := by
  have hsum := UndoLog.sum_update_add (fun c => (s.freeLists c : Multiset PhysRegId)) c (l : Multiset PhysRegId)
  refine Eq.trans ?_ hsum
  congr 1
  unfold free
  rw [hf]
  apply Finset.sum_congr rfl
  intro x _
  by_cases hx : x = c
  · subst hx
    rw [update_self, update_self]
  · rw [update_of_ne hx, update_of_ne hx]

theorem free_addReg (s : Rename n) (r : PhysRegId) : (s.addReg r).free = s.free + {r} := by
  have hsum : (s.addReg r).free + s.freeLists r.cls = s.free + ↑(s.freeLists r.cls ++ [r]) := free_update rfl
  rw [← Multiset.coe_add, add_comm (s.freeLists r.cls : Multiset PhysRegId), ← add_assoc] at hsum
  exact add_right_cancel hsum

theorem free_take {r : PhysRegId} (hf : s.freeLists = update s'.freeLists c (r :: s'.freeLists c)) :
    s.free = s'.free + {r} := by
  have hsum := free_update hf
  rw [← Multiset.cons_coe, ← Multiset.singleton_add, ← add_assoc] at hsum
  exact add_right_cancel hsum

/-- The balance of one step: what goes to the free list leaves the thread, and the other way round. -/
theorem owned_eq_of_balance (give take : Multiset PhysRegId) (hothers : ∀ u, u ≠ t → s'.heldBy u = s.heldBy u)
    (hfree : s'.free + take = s.free + give) (hheld : s'.heldBy t + give = s.heldBy t + take) : s'.owned = s.owned := by
  have hsum : ∑ u, s'.heldBy u + s.heldBy t = ∑ u, s.heldBy u + s'.heldBy t := by
    rw [← UndoLog.sum_update_add s.heldBy t (s'.heldBy t)]
    congr 1
    apply Finset.sum_congr rfl
    intro u _
    by_cases hu : u = t
    · subst hu
      rw [update_self]
    · rw [update_of_ne hu]
      exact hothers u hu
  apply add_right_cancel (b := s.heldBy t + take)
  unfold owned
  calc s'.free + ∑ u, s'.heldBy u + (s.heldBy t + take)
      = (s'.free + take) + (∑ u, s'.heldBy u + s.heldBy t) := by abel
    _ = (s.free + give) + (∑ u, s.heldBy u + s'.heldBy t) := by rw [hfree, hsum]
    _ = (s.free + ∑ u, s.heldBy u) + (s'.heldBy t + give) := by abel
    _ = (s.free + ∑ u, s.heldBy u) + (s.heldBy t + take) := by rw [hheld]

theorem heldBy_setHistory (s : Rename n) (t : Fin n) (h : List RenameHistory) : (s.setHistory t h).heldBy t =
    UndoLog.held (archRegs s.numArchRegs).toFinset (s.lookup t) (h.map RenameHistory.change) := by
  rw [heldBy, lookup_setHistory, historyBuffer_setHistory, numArchRegs_setHistory]

theorem heldBy_setHistory_of_ne (h h' : List RenameHistory) (hlook : ∀ u, u ≠ t → s'.lookup u = s.lookup u)
    (hnum : s'.numArchRegs = s.numArchRegs) (hhist : s'.historyBuffer = s.historyBuffer) (u : Fin n) (hu : u ≠ t) :
    (s'.setHistory t h').heldBy u = (s.setHistory t h).heldBy u := by
  simp only [heldBy, lookup_setHistory, historyBuffer_setHistory_of_ne _ hu, numArchRegs_setHistory, hlook u hu, hnum,
    hhist]

theorem mem_owned_of_lookup {a : RegId} (ha : a ∈ archRegs s.numArchRegs) (t : Fin n) :
    s.lookup t a ∈ ∑ u, s.heldBy u := by
  refine Multiset.mem_of_le (Finset.single_le_sum_of_canonicallyOrdered (Finset.mem_univ t)) ?_
  exact Multiset.mem_add.2 (.inl (Multiset.mem_map_of_mem _ (List.mem_toFinset.2 ha)))

theorem Renamed.new_ne (hr : Renamed s t d new s') (hn : s.owned.Nodup) (hd : d.reg.isRenameable = true)
    (hfree : new ∈ s.free) : new ≠ s.lookup t d.reg := by
  rintro rfl
  exact Multiset.disjoint_left.1 (Multiset.nodup_add.1 hn).2.2 hfree
    (mem_owned_of_lookup (mem_archRegs.2 ⟨hd, hr.inRange hd⟩) t)

theorem owned_renamed (hn : s.owned.Nodup) (hr : Renamed s t d new s') (q : Nat) :
    (s'.setHistory t (⟨q, d.reg, new, s.lookup t d.reg⟩ :: s.historyBuffer t)).owned = s.owned := by
  have hothers := heldBy_setHistory_of_ne (s.historyBuffer t)
    (⟨q, d.reg, new, s.lookup t d.reg⟩ :: s.historyBuffer t)
    (fun u hu => by rw [hr.lookup, update_of_ne hu]) hr.numArchRegs hr.historyBuffer
  rw [setHistory_self] at hothers
  rcases hr.freeLists with ⟨rfl, hf⟩ | ⟨hd, hf⟩
  · refine owned_eq_of_balance 0 0 hothers (congrArg (· + 0) ?_) (congrArg (· + 0) ?_)
    · simp only [free, freeLists_setHistory, hf]
    · rw [heldBy_setHistory, hr.lookup, hr.numArchRegs, update_self, Function.update_eq_self, List.map_cons]
      exact UndoLog.held_same rfl
  · have hfree := free_take hf
    have hmem := mem_archRegs.2 ⟨hd, hr.inRange hd⟩
    have hne := hr.new_ne hn hd (by simp [hfree])
    refine owned_eq_of_balance 0 {new} hothers (by rw [hfree, add_zero]; rfl) ?_
    rw [heldBy_setHistory, hr.lookup, hr.numArchRegs, update_self, List.map_cons, add_zero]
    exact UndoLog.held_change (e := ⟨d.reg, new, s.lookup t d.reg⟩) (List.mem_toFinset.2 hmem) rfl hne

theorem owned_undone (hs : Sound base (s.setHistory t (e :: h))) :
    ((s.undone t e).setHistory t h).owned = (s.setHistory t (e :: h)).owned := by
  obtain ⟨he, hnew, -⟩ := hs.newest
  have hothers := heldBy_setHistory_of_ne (e :: h) h
    (fun u hu => by rw [lookup_undone he hnew, update_of_ne hu]) (numArchRegs_undone s t e)
    (historyBuffer_undone s t e)
  by_cases hne : e.newPhysReg ≠ e.prevPhysReg
  · refine owned_eq_of_balance {e.newPhysReg} 0 hothers ?_ ?_
    · rw [add_zero]
      refine Eq.trans ?_ (free_addReg s _)
      simp only [free, freeLists_setHistory, freeLists_undone, if_pos hne]
    · rw [heldBy_setHistory, heldBy_setHistory, lookup_undone he hnew, update_self, numArchRegs_undone, add_zero]
      exact UndoLog.held_undo hs.own (List.mem_toFinset.2 (he.mapped hne)) hne
  · have heq := not_not.1 hne
    refine owned_eq_of_balance 0 0 hothers (congrArg (· + 0) ?_) (congrArg (· + 0) ?_)
    · simp only [free, freeLists_setHistory, freeLists_undone, if_neg hne]
    · rw [heldBy_setHistory, heldBy_setHistory, lookup_undone he hnew, update_self, numArchRegs_undone, ← heq,
        ← hnew, Function.update_eq_self]
      exact (UndoLog.held_same heq).symm

theorem owned_release : ((s.release e).setHistory t h).owned = (s.setHistory t (h ++ [e])).owned := by
  have hothers := heldBy_setHistory_of_ne (t := t) (h ++ [e]) h (fun u _ => by rw [lookup_release])
    (numArchRegs_release s e) (historyBuffer_release s e)
  refine owned_eq_of_balance (if e.newPhysReg ≠ e.prevPhysReg then {e.prevPhysReg} else 0) 0 hothers
    ?_ ?_
  · rw [add_zero]
    change (s.release e).free = s.free + _
    unfold release
    split_ifs
    · exact free_addReg s _
    · rw [add_zero]
  · rw [heldBy_setHistory, heldBy_setHistory, lookup_release, numArchRegs_release, add_zero, List.map_append]
    exact UndoLog.held_forget _ _ _ e.change

end Owned

/-! ## Runs -/

/-- The registers stay in the places `Sound` says, and the stage owns `total`. -/
structure Conserved (total : Multiset PhysRegId) (s : Rename n) : Prop where
  sound : ∃ base, Sound base s
  owned : s.owned = total
  unpinned : ∀ r, s.numPinnedWrites r = 0

section Conserved

variable {total : Multiset PhysRegId} {s s' : Rename n}

def Renameable (s : Rename n) (d : DestReg) : Prop :=
  d.numPinnedWrites = 0 ∧ (d.reg.isRenameable = true → d.reg.index < s.numArchRegs d.reg.cls)

variable {d : DestReg} {new : PhysRegId} {t : Fin n}

theorem Conserved.renamed (hs : Conserved total s) (hn : total.Nodup) (hd : d.numPinnedWrites = 0)
    (hr : Renamed s t d new s') (q : Nat) :
    Conserved total (s'.setHistory t (⟨q, d.reg, new, s.lookup t d.reg⟩ :: s.historyBuffer t)) where
  sound := hs.sound.imp (fun _ h => h.renamed hr q)
  owned := by
    rw [← hs.owned] at hn ⊢
    exact owned_renamed hn hr q
  unpinned := hr.unpinned hd hs.unpinned

theorem Renamed.enough (hr : Renamed s t d new s') {ds : List DestReg} {c : RegClass}
    (hc : (d :: ds).countP (fun d => decide (d.reg.cls = c)) ≤ (s.freeLists c).length) :
    ds.countP (fun d => decide (d.reg.cls = c)) ≤ (s'.freeLists c).length := by
  rw [List.countP_cons] at hc
  rcases hr.freeLists with ⟨-, hf⟩ | ⟨-, hf⟩
  · rw [hf]
    omega
  · rw [hf] at hc
    by_cases hcls : c = d.reg.cls
    · subst hcls
      simpa using hc
    · rw [update_of_ne hcls] at hc
      omega

/-- **Enough free registers carry `renameDestRegs` through**. -/
theorem Conserved.renameDests (hn : total.Nodup) (t : Fin n) (q : Nat) : ∀ (ds : List DestReg) (s : Rename n),
    Conserved total s → (∀ d ∈ ds, s.Renameable d) →
    (∀ c ∈ RegClass.renamed, ds.countP (fun d => decide (d.reg.cls = c)) ≤ (s.freeLists c).length) →
    ∃ s', Rename.renameDests t q s ds = .ok s' ∧ Conserved total s'
  | [], s, hs, _, _ => ⟨s, rfl, hs⟩
  | d :: ds, s, hs, hds, hc => by
    obtain ⟨hd, hi⟩ := hds d List.mem_cons_self
    obtain ⟨s₁, hok⟩ : ∃ s₁, s.renameDest t q d = .ok s₁ := by
      refine Run.exists_map_eq_ok.2 (rename_returns hs.unpinned hi ?_)
      intro hr hnil
      have hone := hc d.reg.cls (RegId.isRenameable_iff_mem.1 hr)
      simp [hnil] at hone
    obtain ⟨new, s₂, hr, rfl⟩ := renameDest_eq_ok hok
    obtain ⟨s', hrest, hs'⟩ := Conserved.renameDests hn t q ds _ (hs.renamed hn hd hr q)
      (fun x hx => by
        rw [Renameable, numArchRegs_setHistory, hr.numArchRegs]
        exact hds x (List.mem_cons_of_mem _ hx))
      (fun c hcm => hr.enough (hc c hcm))
    refine ⟨s', ?_, hs'⟩
    rw [Rename.renameDests, hok]
    exact hrest

theorem Conserved.doSquash (hs : Conserved total s) (q : Nat) (t : Fin n) :
    ∃ s', s.doSquash q t = .ok s' ∧ Conserved total s' := by
  obtain ⟨s', hok, hs', -⟩ := doSquash_rule (q := q) (t := t) (P := Conserved total) (by
    intro s e h _ hs
    obtain ⟨base, hsound⟩ := hs.sound
    refine ⟨_, undo_eq hsound.newest.1, ⟨base, hsound.undo⟩, ?_, ?_⟩
    · rw [owned_undone hsound, hs.owned]
    · simpa [setHistory] using hs.unpinned) hs
  exact ⟨s', hok, hs'⟩

theorem Conserved.removeFromHistory (hs : Conserved total s) (q : Nat) (t : Fin n) :
    Conserved total (s.removeFromHistory q t) := by
  refine removeFromHistory_rule (P := Conserved total) ?_ hs
  intro s e h _ hs
  obtain ⟨base, hsound⟩ := hs.sound
  refine ⟨⟨_, hsound.release⟩, ?_, ?_⟩
  · rw [owned_release, hs.owned]
  · simpa [setHistory] using hs.unpinned

end Conserved

/-- What the pipeline asks of the stage: an instruction is renamed only if it can be. -/
def Enabled (s : Rename n) : Call n → Prop
  | .renameDestRegs _ i => s.canRename i = true ∧ ∀ d ∈ i.dests, s.Renameable d
  | _ => True

inductive Reach (s₀ : Rename n) : Rename n → Prop where
  | start : Reach s₀ s₀
  | step {s s' : Rename n} {c : Call n} : Reach s₀ s → s.Enabled c → s.exec c = .ok s' → Reach s₀ s'

variable {s : Rename n} {total : Multiset PhysRegId}

theorem Conserved.exec (hs : Conserved total s) (hn : total.Nodup) {c : Call n} (hc : s.Enabled c) :
    ∃ s', s.exec c = .ok s' ∧ Conserved total s' := by
  cases c with
  | renameDestRegs t i =>
    obtain ⟨hcan, hds⟩ := hc
    apply Conserved.renameDests hn t i.seqNum i.dests s hs hds
    intro c hcm
    have hfree := List.all_eq_true.1 hcan c hcm
    exact (i.counted c hcm).trans (by simpa using hfree)
  | doSquash q t => exact hs.doSquash q t
  | removeFromHistory q t => exact ⟨_, rfl, hs.removeFromHistory q t⟩

theorem Conserved.reach {s₀ : Rename n} (h₀ : Conserved total s₀) (hn : total.Nodup) (h : Reach s₀ s) :
    Conserved total s := by
  induction h with
  | start => exact h₀
  | step _ hc hex ih =>
    obtain ⟨s', hok, hs'⟩ := ih.exec hn hc
    rw [hex] at hok
    cases hok
    exact hs'

/-! ## Where a register is -/

def freeCount (s : Rename n) (r : PhysRegId) : Nat := ∑ c, (s.freeLists c).count r

def mapCount (s : Rename n) (r : PhysRegId) : Nat :=
  ∑ t, ((archRegs s.numArchRegs).toFinset.filter (fun a => s.lookup t a = r)).card

def historyCount (s : Rename n) (r : PhysRegId) : Nat :=
  ∑ t, (s.historyBuffer t).countP (fun e => decide (e.prevPhysReg = r ∧ e.newPhysReg ≠ e.prevPhysReg))

theorem count_remembered (h : List RenameHistory) (r : PhysRegId) :
    (UndoLog.remembered (h.map RenameHistory.change)).count r =
      h.countP (fun e => decide (e.prevPhysReg = r ∧ e.newPhysReg ≠ e.prevPhysReg)) := by
  induction h with
  | nil => rfl
  | cons e h ih =>
    rw [List.map_cons, UndoLog.remembered_cons, Multiset.count_add, ih, List.countP_cons]
    congr 1
    change Multiset.count r (if e.newPhysReg ≠ e.prevPhysReg then {e.prevPhysReg} else 0) = _
    by_cases hne : e.newPhysReg = e.prevPhysReg
    · simp [hne]
    · rw [if_pos hne, Multiset.count_singleton]
      simp [hne, eq_comm]

theorem count_owned (s : Rename n) (r : PhysRegId) :
    s.owned.count r = s.freeCount r + s.mapCount r + s.historyCount r := by
  have hheld : ∀ t, (s.heldBy t).count r = ((archRegs s.numArchRegs).toFinset.filter (fun a => s.lookup t a = r)).card +
      (s.historyBuffer t).countP (fun e => decide (e.prevPhysReg = r ∧ e.newPhysReg ≠ e.prevPhysReg)) := by
    intro t
    rw [heldBy, UndoLog.held, Multiset.count_add, count_remembered, Multiset.count_map]
    simp only [Finset.card_def, Finset.filter_val, eq_comm]
  unfold owned free freeCount mapCount historyCount
  rw [Multiset.count_add, Multiset.count_sum', Multiset.count_sum', Finset.sum_congr rfl (fun t _ => hheld t),
    Finset.sum_add_distrib, add_assoc]
  simp only [Multiset.coe_count]

theorem mem_free {r : PhysRegId} : r ∈ s.free ↔ ∃ c, r ∈ s.freeLists c := by
  change r ∈ Multiset.bind Finset.univ.val _ ↔ _
  simp

section Initial

variable {numPhysRegs : RegClass → Nat} {s : Rename n}

theorem Initial.heldBy_eq (hs : Initial numPhysRegs s) (t : Fin n) :
    s.heldBy t = (archRegs s.numArchRegs).toFinset.val.map (s.lookup t) := by
  rw [heldBy, hs.historyBuffer t, UndoLog.held, List.map_nil, UndoLog.remembered_nil, add_zero]

variable {r : PhysRegId}

section

variable (hs : Initial numPhysRegs s)
include hs

theorem Initial.mem_heldBy {t : Fin n} :
    r ∈ s.heldBy t ↔ ∃ a ∈ archRegs s.numArchRegs, s.lookup t a = r := by
  rw [hs.heldBy_eq, Multiset.mem_map]
  simp only [Finset.mem_val, List.mem_toFinset]

theorem Initial.free_nodup : s.free.Nodup := by
  refine Multiset.nodup_bind.2 ⟨fun c _ => Multiset.coe_nodup.2 (hs.freeNodup c), ?_⟩
  refine Multiset.Nodup.pairwise (fun c _ c' _ hne => ?_) Finset.univ.nodup
  refine Multiset.disjoint_left.2 (fun hr hr' => hne ?_)
  rw [← hs.freeClass c _ hr, ← hs.freeClass c' _ hr']

theorem Initial.held_nodup : (∑ t, s.heldBy t).Nodup := by
  refine Multiset.nodup_bind.2 ⟨fun t _ => ?_, ?_⟩
  · rw [hs.heldBy_eq]
    refine Multiset.Nodup.map_on (fun a ha b hb hab => ?_) (Finset.nodup _)
    exact (hs.injective t t a (List.mem_toFinset.1 ha) b (List.mem_toFinset.1 hb) hab).2
  · refine Multiset.Nodup.pairwise (fun t _ u _ hne => ?_) Finset.univ.nodup
    refine Multiset.disjoint_left.2 (fun hr hr' => hne ?_)
    obtain ⟨a, ha, rfl⟩ := hs.mem_heldBy.1 hr
    obtain ⟨b, hb, hab⟩ := hs.mem_heldBy.1 hr'
    exact (hs.injective t u a ha b hb hab.symm).1

theorem Initial.owned_nodup : s.owned.Nodup := by
  refine Multiset.nodup_add.2 ⟨hs.free_nodup, hs.held_nodup, Multiset.disjoint_left.2 (fun {r} hr hheld => ?_)⟩
  obtain ⟨c, hc⟩ := mem_free.1 hr
  obtain ⟨t, -, ht⟩ := Multiset.mem_bind.1 hheld
  obtain ⟨a, ha, rfl⟩ := hs.mem_heldBy.1 ht
  rw [← hs.freeClass c _ hc, hs.mapClass t a ha] at hc
  exact hs.disjoint t a ha hc

theorem Initial.mem_owned {c : RegClass} (hr : r ∈ initFreeList numPhysRegs c) :
    r ∈ s.owned := by
  refine Multiset.mem_add.2 ?_
  rcases hs.covers c r hr with hf | ⟨t, a, ha, rfl⟩
  · exact .inl (mem_free.2 ⟨c, hf⟩)
  · exact .inr (mem_owned_of_lookup ha t)

theorem Initial.conserved : Conserved s.owned s :=
  ⟨⟨_, hs.sound⟩, rfl, hs.unpinned⟩

end

/-- **Physical registers are conserved**: in every state of every run, over all threads, each physical register of a class
that is renamed is on a free list once, or in one entry of one rename map, or replaced by one live entry of one history,
and in one of the three only; and the next call returns, so no register is taken from an empty free list. -/
theorem registers_conserved {s₀ : Rename n} (h₀ : Initial numPhysRegs s₀) (h : Reach s₀ s) :
    (∀ c, ∀ r ∈ initFreeList numPhysRegs c, s.freeCount r + s.mapCount r + s.historyCount r = 1) ∧
      ∀ c, s.Enabled c → ∃ s', s.exec c = .ok s' := by
  have hs := h₀.conserved.reach h₀.owned_nodup h
  constructor
  · intro c r hr
    rw [← count_owned, hs.owned]
    exact Multiset.count_eq_one_of_mem h₀.owned_nodup (h₀.mem_owned hr)
  · intro c hc
    obtain ⟨s', hok, -⟩ := hs.exec h₀.owned_nodup hc
    exact ⟨s', hok⟩

end Initial

theorem registers_conserved_two_threads : ∃ s₀ s₁ : Rename 2, create 2 sampleArchRegs samplePhysRegs = .ok s₀ ∧
    s₀.exec (.renameDestRegs 0 (sampleWriter 1)) = .ok s₁ ∧
    (∀ c, ∀ r ∈ initFreeList samplePhysRegs c, s₁.freeCount r + s₁.mapCount r + s₁.historyCount r = 1) ∧
    ∀ c, s₁.Enabled c → ∃ s₂, s₁.exec c = .ok s₂ := by
  refine ⟨_, _, rfl, rfl, ?_⟩
  refine registers_conserved (@create_initial 2 sampleArchRegs samplePhysRegs _ rfl)
    (.step (c := .renameDestRegs 0 (sampleWriter 1)) .start ⟨by decide, ?_⟩ rfl)
  intro d hd
  simp only [sampleWriter, List.mem_cons, List.not_mem_nil, or_false] at hd
  rcases hd with rfl | rfl | rfl
  all_goals exact ⟨rfl, by decide⟩

end Rename
end Gem5
