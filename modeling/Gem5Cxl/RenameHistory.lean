import Gem5Cxl.Rename
/-!
# RenameHistory — the history of a thread leads to its rename map

What one rename, one undo and one release do to the maps, the free lists and the history, and the invariant they keep:
registers stay in their class, and the history of each thread is an undo log of its map.  The two loops over the history
each get one rule, with a property of the state whose history is what is left to walk.
-/
namespace Gem5

open Function (update update_of_ne update_self)

variable {a : RegId}

theorem RegId.isRenameable_iff : a.isRenameable = true ↔ a.cls ≠ .misc ∧ a.cls ≠ .invalid := by
  simp [RegId.isRenameable]

theorem RegId.isRenameable_iff_mem : a.isRenameable = true ↔ a.cls ∈ RegClass.renamed := by
  rcases a with ⟨c, i⟩
  cases c <;> simp [RegId.isRenameable, RegClass.renamed]

def RenameHistory.change (e : RenameHistory) : UndoLog.Entry RegId PhysRegId := ⟨e.archReg, e.newPhysReg, e.prevPhysReg⟩

namespace Rename

variable {n : Nat}

@[simp] theorem setHistory_self (s : Rename n) (t : Fin n) : s.setHistory t (s.historyBuffer t) = s := by
  simp [setHistory]

@[simp] theorem historyBuffer_setHistory (s : Rename n) (t : Fin n) (h : List RenameHistory) :
    (s.setHistory t h).historyBuffer t = h := by
  simp [setHistory]

variable {t : Fin n} {a : RegId} {s s' : Rename n} {r : PhysRegId} {d : DestReg} {q : Nat} {e : RenameHistory}

@[simp] theorem historyBuffer_setHistory_of_ne (s : Rename n) {u : Fin n} (hu : u ≠ t) (h : List RenameHistory) :
    (s.setHistory t h).historyBuffer u = s.historyBuffer u := by
  simp [setHistory, hu]

section

variable (s : Rename n) (t : Fin n) (h : List RenameHistory)

@[simp] theorem numArchRegs_setHistory : (s.setHistory t h).numArchRegs = s.numArchRegs := rfl

@[simp] theorem freeLists_setHistory : (s.setHistory t h).freeLists = s.freeLists := rfl

@[simp] theorem lookup_setHistory : (s.setHistory t h).lookup = s.lookup := rfl

end

@[simp] theorem lookup_addReg (s : Rename n) (r : PhysRegId) : (s.addReg r).lookup = s.lookup := rfl

theorem lookup_of_renameable (ha : a.isRenameable = true) : s.lookup t a = s.renameMap t a := by
  obtain ⟨hm, hi⟩ := RegId.isRenameable_iff.1 ha
  rw [lookup, if_neg hi, if_neg hm]

theorem lookup_cls_of_not_renameable (ha : a.isRenameable = false) : (s.lookup t a).cls = a.cls := by
  unfold lookup
  by_cases hi : a.cls = .invalid
  · rw [if_pos hi, hi]
  · by_cases hm : a.cls = .misc
    · rw [if_neg hi, if_pos hm, hm]
    · simp [RegId.isRenameable, hi, hm] at ha

theorem lookup_setMap (ha : a.isRenameable = true) :
    (s.setMap t a r).lookup = update s.lookup t (update (s.lookup t) a r) := by
  funext u b
  by_cases hu : u = t
  · subst hu
    by_cases hb : b = a
    · subst hb
      rw [lookup_of_renameable ha]
      simp [setMap]
    · simp [lookup, setMap, hb]
  · simp [lookup, setMap, hu]

/-! ## One rename -/

/-- What `rename` does: the map of the register becomes `new`, which it was or which comes from the free list. -/
structure Renamed (s : Rename n) (t : Fin n) (d : DestReg) (new : PhysRegId) (s' : Rename n) : Prop where
  lookup : s'.lookup = Function.update s.lookup t (Function.update (s.lookup t) d.reg new)
  numArchRegs : s'.numArchRegs = s.numArchRegs
  inRange : d.reg.isRenameable = true → d.reg.index < s.numArchRegs d.reg.cls
  historyBuffer : s'.historyBuffer = s.historyBuffer
  unpinned : d.numPinnedWrites = 0 → (∀ r, s.numPinnedWrites r = 0) → ∀ r, s'.numPinnedWrites r = 0
  freeLists : (new = s.lookup t d.reg ∧ s'.freeLists = s.freeLists) ∨
    (d.reg.isRenameable = true ∧ s.freeLists = Function.update s'.freeLists d.reg.cls (new :: s'.freeLists d.reg.cls))

theorem renamed_same (hd : d.reg.isRenameable = false) : Renamed s t d (s.lookup t d.reg) s where
  lookup := by simp
  numArchRegs := rfl
  inRange h := by simp [hd] at h
  historyBuffer := rfl
  unpinned _ h := h
  freeLists := .inl ⟨rfl, rfl⟩

theorem renamed_unpin (hi : d.reg.index < s.numArchRegs d.reg.cls) (hr : 0 < s.numPinnedWrites r) (v : Int) :
    Renamed s t d (s.lookup t d.reg) { s with numPinnedWrites := update s.numPinnedWrites r v } where
  lookup := by
    simp only [Function.update_eq_self]
    rfl
  numArchRegs := rfl
  inRange _ := hi
  historyBuffer := rfl
  unpinned _ h := by
    rw [h r] at hr
    exact absurd hr (lt_irrefl 0)
  freeLists := .inl ⟨rfl, rfl⟩

theorem getReg_eq_ok {c : RegClass} : s.getReg c = .ok (s', r) ↔
      ∃ rest, s.freeLists c = r :: rest ∧ s' = { s with freeLists := update s.freeLists c rest } := by
  unfold getReg
  cases s.freeLists c with
  | nil => simp
  | cons r' rest =>
    constructor
    · intro h
      cases h
      exact ⟨rest, rfl, rfl⟩
    · rintro ⟨rest', hc, rfl⟩
      cases hc
      rfl

theorem renamed_allocate (hd : d.reg.isRenameable = true) (hi : d.reg.index < s.numArchRegs d.reg.cls)
    (h : s.allocate t d = .ok (s', r)) : Renamed s t d r s' := by
  obtain ⟨⟨s₁, r'⟩, hg, heq⟩ := Run.map_eq_ok.1 h
  obtain ⟨rest, hf, rfl⟩ := getReg_eq_ok.1 hg
  cases heq
  constructor
  case lookup => exact lookup_setMap hd
  case numArchRegs => rfl
  case inRange => exact fun _ => hi
  case historyBuffer => rfl
  case unpinned =>
    intro h0 hall r'
    by_cases hr : r' = r
    · subst hr
      simpa using h0
    · simpa [setMap, hr] using hall r'
  case freeLists =>
    refine .inr ⟨hd, ?_⟩
    simp [setMap, ← hf]

theorem rename_eq_ok {new prev : PhysRegId} (h : s.rename t d = .ok (s', new, prev)) :
    Renamed s t d new s' ∧ prev = s.lookup t d.reg := by
  unfold rename at h
  by_cases hd : d.reg.isRenameable = true
  · rw [if_neg (by simp [hd])] at h
    unfold simpleRename at h
    have hprev : s.lookup t d.reg = s.renameMap t d.reg := lookup_of_renameable hd
    by_cases hi : s.numArchRegs d.reg.cls ≤ d.reg.index
    · simp [hi] at h
    · rw [if_neg hi, if_neg (RegId.isRenameable_iff.1 hd).2] at h
      by_cases hp : 0 < s.numPinnedWrites (s.renameMap t d.reg)
      · rw [if_pos hp] at h
        obtain ⟨_, -, heq⟩ := Run.bind_eq_ok.1 h
        cases heq
        rw [← hprev] at hp ⊢
        exact ⟨renamed_unpin (not_le.1 hi) hp _, rfl⟩
      · rw [if_neg hp] at h
        obtain ⟨⟨s₁, r⟩, ha, heq⟩ := Run.map_eq_ok.1 h
        cases heq
        exact ⟨renamed_allocate hd (not_le.1 hi) ha, hprev.symm⟩
  · rw [if_pos (by simpa using hd)] at h
    cases h
    exact ⟨renamed_same (by simpa using hd), rfl⟩

theorem rename_returns (hp : ∀ r, s.numPinnedWrites r = 0)
    (hi : d.reg.isRenameable = true → d.reg.index < s.numArchRegs d.reg.cls)
    (hf : d.reg.isRenameable = true → s.freeLists d.reg.cls ≠ []) : ∃ out, s.rename t d = .ok out := by
  unfold rename
  by_cases hd : d.reg.isRenameable = true
  · obtain ⟨r, rest, hr⟩ := List.exists_cons_of_ne_nil (hf hd)
    rw [if_neg (by simp [hd]), simpleRename, if_neg (not_le.2 (hi hd)), if_neg (RegId.isRenameable_iff.1 hd).2,
      if_neg (by simp [hp])]
    exact Run.exists_map_eq_ok.2 (Run.exists_map_eq_ok.2 ⟨_, getReg_eq_ok.2 ⟨rest, hr, rfl⟩⟩)
  · rw [if_pos (by simpa using hd)]
    exact ⟨_, rfl⟩

theorem renameDest_eq_ok (h : s.renameDest t q d = .ok s') : ∃ new s₁, Renamed s t d new s₁ ∧
      s' = s₁.setHistory t (⟨q, d.reg, new, s.lookup t d.reg⟩ :: s.historyBuffer t) := by
  obtain ⟨⟨s₁, new, prev⟩, hr, heq⟩ := Run.map_eq_ok.1 h
  obtain ⟨hren, rfl⟩ := rename_eq_ok hr
  refine ⟨new, s₁, hren, ?_⟩
  rw [← hren.historyBuffer]
  exact heq.symm

/-! ## The loops over the history -/

section

variable {P : Rename n → Prop} (step : ∀ (s : Rename n) (e : RenameHistory) (h : List RenameHistory), q < e.instSeqNum →
  P (s.setHistory t (e :: h)) → ∃ s', s.undo t e = .ok s' ∧ P (s'.setHistory t h))
include step

theorem squashLoop_rule :
    ∀ (h : List RenameHistory) (s : Rename n), P (s.setHistory t h) → ∃ s', squashLoop q t s h = .ok s' ∧ P s' ∧
      s'.historyBuffer t = h.dropWhile (fun e => decide (q < e.instSeqNum))
  | [], s, hs => ⟨_, rfl, hs, by simp [setHistory]⟩
  | e :: h, s, hs => by
    by_cases hq : q < e.instSeqNum
    · obtain ⟨s₁, hu, h₁⟩ := step s e h hq hs
      obtain ⟨s', hl, hP, hh⟩ := squashLoop_rule h s₁ h₁
      refine ⟨s', ?_, hP, by rw [hh, List.dropWhile_cons_of_pos (by simpa using hq)]⟩
      rw [squashLoop, if_pos hq, hu]
      exact hl
    · refine ⟨_, by rw [squashLoop, if_neg hq], hs, ?_⟩
      rw [List.dropWhile_cons_of_neg (by simpa using hq)]
      simp [setHistory]

theorem doSquash_rule (hs : P s) :
    ∃ s', s.doSquash q t = .ok s' ∧ P s' ∧
      s'.historyBuffer t = (s.historyBuffer t).dropWhile (fun e => decide (q < e.instSeqNum)) :=
  squashLoop_rule step _ s (by rwa [setHistory_self])

end

section

variable {P : Rename n → Prop} (step : ∀ (s : Rename n) (e : RenameHistory) (h : List RenameHistory), e.instSeqNum ≤ q →
  P (s.setHistory t (h ++ [e])) → P ((s.release e).setHistory t h))
include step

theorem retireLoop_rule :
    ∀ (h : List RenameHistory) (s : Rename n), P (s.setHistory t h.reverse) → P (retireLoop q t s h)
  | [], _, hs => hs
  | e :: h, s, hs => by
    unfold retireLoop
    by_cases hq : e.instSeqNum ≤ q
    · rw [if_pos hq]
      rw [List.reverse_cons] at hs
      exact retireLoop_rule h _ (step s e h.reverse hq hs)
    · rw [if_neg hq]
      exact hs

theorem removeFromHistory_rule (hs : P s) :
    P (s.removeFromHistory q t) :=
  retireLoop_rule step _ s (by rwa [List.reverse_reverse, setHistory_self])

end

/-! ## The invariant -/

theorem mem_archRegs {num : RegClass → Nat} : a ∈ archRegs num ↔ a.isRenameable = true ∧ a.index < num a.cls := by
  rw [RegId.isRenameable_iff_mem, archRegs, List.mem_flatMap]
  constructor
  · rintro ⟨c, hc, ha⟩
    obtain ⟨i, hi, rfl⟩ := List.mem_map.1 ha
    exact ⟨hc, List.mem_range.1 hi⟩
  · rintro ⟨hc, hi⟩
    exact ⟨a.cls, hc, List.mem_map.2 ⟨a.index, List.mem_range.2 hi, rfl⟩⟩

/-- An entry keeps to the class of its register, and changed a register that has a map. -/
structure Entry (num : RegClass → Nat) (e : RenameHistory) : Prop where
  newClass : e.newPhysReg.cls = e.archReg.cls
  prevClass : e.prevPhysReg.cls = e.archReg.cls
  mapped : e.newPhysReg ≠ e.prevPhysReg → e.archReg ∈ archRegs num

/-- Registers keep to their class, and the history of each thread leads from `base` to its map. -/
structure Sound (base : Fin n → RegId → PhysRegId) (s : Rename n) : Prop where
  freeClass : ∀ c, ∀ r ∈ s.freeLists c, r.cls = c
  mapClass : ∀ t, ∀ a ∈ archRegs s.numArchRegs, (s.lookup t a).cls = a.cls
  entries : ∀ t, ∀ e ∈ s.historyBuffer t, Entry s.numArchRegs e
  leads : ∀ t, UndoLog.Leads (base t) ((s.historyBuffer t).map RenameHistory.change) (s.lookup t)

structure Fresh (s : Rename n) : Prop where
  freeClass : ∀ c, ∀ r ∈ s.freeLists c, r.cls = c
  mapClass : ∀ t, ∀ a ∈ archRegs s.numArchRegs, (s.lookup t a).cls = a.cls
  historyBuffer : ∀ t, s.historyBuffer t = []

theorem Fresh.sound (hs : Fresh s) : Sound s.lookup s where
  freeClass := hs.freeClass
  mapClass := hs.mapClass
  entries t e he := by simp [hs.historyBuffer t] at he
  leads t := by
    rw [hs.historyBuffer t]
    exact .nil

def undone (s : Rename n) (t : Fin n) (e : RenameHistory) : Rename n :=
  if e.newPhysReg ≠ e.prevPhysReg then (s.setMap t e.archReg e.prevPhysReg).addReg e.newPhysReg else s

theorem undo_eq (he : Entry s.numArchRegs e) : s.undo t e = .ok (s.undone t e) := by
  unfold undo undone
  by_cases hne : e.newPhysReg ≠ e.prevPhysReg
  · obtain ⟨hr, hi⟩ := mem_archRegs.1 (he.mapped hne)
    simp [hne, setEntry, he.prevClass, hr, hi.le, hi.ne, Except.map]
  · simp [hne]

theorem lookup_undone (he : Entry s.numArchRegs e) (hnew : s.lookup t e.archReg = e.newPhysReg) :
    (s.undone t e).lookup = update s.lookup t (update (s.lookup t) e.archReg e.prevPhysReg) := by
  unfold undone
  by_cases hne : e.newPhysReg ≠ e.prevPhysReg
  · rw [if_pos hne, lookup_addReg, lookup_setMap (mem_archRegs.1 (he.mapped hne)).1]
  · rw [if_neg hne, ← not_not.1 hne, ← hnew]
    simp

section

variable (s : Rename n) (t : Fin n) (e : RenameHistory)

theorem freeLists_undone : (s.undone t e).freeLists =
    if e.newPhysReg ≠ e.prevPhysReg then (s.addReg e.newPhysReg).freeLists else s.freeLists := by
  unfold undone
  split_ifs <;> rfl

@[simp] theorem numArchRegs_undone : (s.undone t e).numArchRegs = s.numArchRegs := by
  unfold undone
  split_ifs <;> rfl

@[simp] theorem historyBuffer_undone : (s.undone t e).historyBuffer = s.historyBuffer := by
  unfold undone
  split_ifs <;> rfl

@[simp] theorem numPinnedWrites_undone : (s.undone t e).numPinnedWrites = s.numPinnedWrites := by
  unfold undone
  split_ifs <;> rfl

@[simp] theorem lookup_release : (s.release e).lookup = s.lookup := by
  unfold release
  split_ifs <;> rfl

@[simp] theorem numArchRegs_release : (s.release e).numArchRegs = s.numArchRegs := by
  unfold release
  split_ifs <;> rfl

@[simp] theorem historyBuffer_release : (s.release e).historyBuffer = s.historyBuffer := by
  unfold release
  split_ifs <;> rfl

@[simp] theorem numPinnedWrites_release : (s.release e).numPinnedWrites = s.numPinnedWrites := by
  unfold release
  split_ifs <;> rfl

end

theorem cls_of_mem_addReg (h : ∀ c, ∀ r ∈ s.freeLists c, r.cls = c) (r : PhysRegId) :
    ∀ c, ∀ x ∈ (s.addReg r).freeLists c, x.cls = c := by
  intro c x hx
  by_cases hc : c = r.cls
  · subst hc
    simp only [addReg, update_self, List.mem_append, List.mem_singleton] at hx
    rcases hx with hx | rfl
    · exact h _ x hx
    · rfl
  · simp only [addReg, update_of_ne hc] at hx
    exact h c x hx

section Step

variable {base : Fin n → RegId → PhysRegId} {s s' : Rename n} {t : Fin n} {d : DestReg} {e : RenameHistory}
  {h : List RenameHistory} {new : PhysRegId}

theorem Renamed.mem_freeLists (hr : Renamed s t d new s') {c : RegClass} {r : PhysRegId} (hm : r ∈ s'.freeLists c) :
    r ∈ s.freeLists c := by
  rcases hr.freeLists with ⟨-, hf⟩ | ⟨-, hf⟩
  · rwa [hf] at hm
  · rw [hf]
    by_cases hc : c = d.reg.cls
    · subst hc
      rw [update_self]
      exact List.mem_cons_of_mem _ hm
    · rwa [update_of_ne hc]

theorem Sound.lookup_cls (hs : Sound base s) (t : Fin n) {a : RegId}
    (ha : a.isRenameable = true → a.index < s.numArchRegs a.cls) : (s.lookup t a).cls = a.cls := by
  by_cases hr : a.isRenameable = true
  · exact hs.mapClass t a (mem_archRegs.2 ⟨hr, ha hr⟩)
  · exact lookup_cls_of_not_renameable (by simpa using hr)

section

variable (hs : Sound base s) (hr : Renamed s t d new s')
include hs hr

theorem Sound.new_cls : new.cls = d.reg.cls := by
  rcases hr.freeLists with ⟨rfl, -⟩ | ⟨-, hf⟩
  · exact hs.lookup_cls t hr.inRange
  · exact hs.freeClass _ _ (by rw [hf, update_self]; exact List.mem_cons_self)

theorem Sound.entry (q : Nat) :
    Entry s.numArchRegs ⟨q, d.reg, new, s.lookup t d.reg⟩ where
  newClass := hs.new_cls hr
  prevClass := hs.lookup_cls t hr.inRange
  mapped hne := by
    rcases hr.freeLists with ⟨heq, -⟩ | ⟨hd, -⟩
    · exact absurd heq hne
    · exact mem_archRegs.2 ⟨hd, hr.inRange hd⟩

theorem Sound.renamed (q : Nat) :
    Sound base (s'.setHistory t (⟨q, d.reg, new, s.lookup t d.reg⟩ :: s.historyBuffer t)) where
  freeClass c r hm := hs.freeClass c r (hr.mem_freeLists hm)
  mapClass u a ha := by
    have ha' : a ∈ archRegs s.numArchRegs := by rwa [← hr.numArchRegs]
    rw [lookup_setHistory, hr.lookup]
    by_cases hu : u = t
    · subst hu
      rw [update_self]
      by_cases had : a = d.reg
      · rw [had, update_self]
        exact hs.new_cls hr
      · rw [update_of_ne had]
        exact hs.mapClass u a ha'
    · rw [update_of_ne hu]
      exact hs.mapClass u a ha'
  entries u e he := by
    change Entry s'.numArchRegs e
    rw [hr.numArchRegs]
    by_cases hu : u = t
    · subst hu
      simp only [setHistory, update_self, List.mem_cons] at he
      rcases he with rfl | he
      · exact hs.entry hr q
      · exact hs.entries u e he
    · simp only [setHistory, update_of_ne hu, hr.historyBuffer] at he
      exact hs.entries u e he
  leads u := by
    rw [lookup_setHistory, hr.lookup]
    by_cases hu : u = t
    · subst hu
      simp only [setHistory, update_self, List.map_cons]
      exact .cons (hs.leads u) rfl
    · simp only [setHistory, update_of_ne hu, hr.historyBuffer]
      exact hs.leads u

end

theorem Sound.own (hs : Sound base (s.setHistory t h)) :
    UndoLog.Leads (base t) (h.map RenameHistory.change) (s.lookup t) := by
  simpa only [historyBuffer_setHistory, lookup_setHistory] using hs.leads t

theorem Sound.newest (hs : Sound base (s.setHistory t (e :: h))) : Entry s.numArchRegs e ∧
    s.lookup t e.archReg = e.newPhysReg ∧
    UndoLog.Leads (base t) (h.map RenameHistory.change) (update (s.lookup t) e.archReg e.prevPhysReg) := by
  have he := hs.entries t e (by simp)
  have hl := hs.own
  rw [List.map_cons] at hl
  exact ⟨he, hl.undo⟩

theorem Sound.others (hs : Sound base (s.setHistory t h)) {u : Fin n} (hu : u ≠ t) :
    UndoLog.Leads (base u) ((s.historyBuffer u).map RenameHistory.change) (s.lookup u) := by
  simpa only [historyBuffer_setHistory_of_ne s hu, lookup_setHistory] using hs.leads u

theorem Sound.entries_of_subset (hs : Sound base (s.setHistory t h)) {h' : List RenameHistory} (hsub : h' ⊆ h) :
    ∀ u, ∀ e ∈ (s.setHistory t h').historyBuffer u, Entry s.numArchRegs e := by
  intro u e he
  apply hs.entries u
  by_cases hu : u = t
  · subst hu
    simp only [setHistory, update_self] at he ⊢
    exact hsub he
  · simpa only [setHistory, update_of_ne hu] using he

theorem Sound.undo (hs : Sound base (s.setHistory t (e :: h))) : Sound base ((s.undone t e).setHistory t h) := by
  obtain ⟨he, hnew, hl⟩ := hs.newest
  constructor
  case freeClass =>
    change ∀ c, ∀ r ∈ (s.undone t e).freeLists c, r.cls = c
    rw [freeLists_undone]
    split_ifs
    · exact cls_of_mem_addReg hs.freeClass _
    · exact hs.freeClass
  case mapClass =>
    intro u a ha
    change a ∈ archRegs (s.undone t e).numArchRegs at ha
    rw [numArchRegs_undone] at ha
    rw [lookup_setHistory, lookup_undone he hnew]
    by_cases hu : u = t
    · subst hu
      rw [update_self]
      by_cases hae : a = e.archReg
      · rw [hae, update_self]
        exact he.prevClass
      · rw [update_of_ne hae]
        exact hs.mapClass u a ha
    · rw [update_of_ne hu]
      exact hs.mapClass u a ha
  case entries =>
    intro u x hx
    simp only [setHistory, historyBuffer_undone, numArchRegs_undone] at hx ⊢
    exact hs.entries_of_subset (List.subset_cons_self e h) u x hx
  case leads =>
    intro u
    rw [lookup_setHistory, lookup_undone he hnew]
    by_cases hu : u = t
    · subst hu
      simp only [setHistory, update_self]
      exact hl
    · simp only [setHistory, update_of_ne hu, historyBuffer_undone]
      exact hs.others hu

theorem Sound.oldest (hs : Sound base (s.setHistory t (h ++ [e]))) : e.prevPhysReg = base t e.archReg ∧
    UndoLog.Leads (update (base t) e.archReg e.newPhysReg) (h.map RenameHistory.change) (s.lookup t) := by
  have hl := hs.own
  rw [List.map_append] at hl
  obtain ⟨mid, hold, hnew⟩ := UndoLog.leads_append.1 hl
  cases hold with
  | cons hb hp =>
    cases hb
    exact ⟨hp, hnew⟩

/-- **A release moves the base of its thread** past the oldest entry. -/
theorem Sound.release (hs : Sound base (s.setHistory t (h ++ [e]))) :
    Sound (update base t (update (base t) e.archReg e.newPhysReg)) ((s.release e).setHistory t h) := by
  constructor
  case freeClass =>
    change ∀ c, ∀ r ∈ (s.release e).freeLists c, r.cls = c
    unfold Rename.release
    split_ifs
    · exact cls_of_mem_addReg hs.freeClass _
    · exact hs.freeClass
  case mapClass =>
    intro u a ha
    rw [numArchRegs_setHistory, numArchRegs_release] at ha
    rw [lookup_setHistory, lookup_release]
    exact hs.mapClass u a ha
  case entries =>
    intro u x hx
    simp only [setHistory, historyBuffer_release, numArchRegs_release] at hx ⊢
    exact hs.entries_of_subset (List.subset_append_left h [e]) u x hx
  case leads =>
    intro u
    rw [lookup_setHistory, lookup_release]
    by_cases hu : u = t
    · subst hu
      rw [historyBuffer_setHistory, update_self]
      exact hs.oldest.2
    · rw [historyBuffer_setHistory_of_ne _ hu, update_of_ne hu, historyBuffer_release]
      exact hs.others hu

end Step

end Rename
end Gem5
