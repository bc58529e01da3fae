import Gem5Cxl.RenameCreate
/-!
# RenameRollback — a squash takes the rename map back

A run is recorded: for each thread the instructions it renamed and did not squash, newest first, each with the map that
held when it was done, and the last number it committed.  From every number not older than that, the part of the history
that a squash leaves leads to the map recorded there; commits move the base of the history and leave the map alone.
-/
namespace Gem5

structure RenameTrace (n : Nat) where
  stage : Rename n
  renamed : Fin n → List (Nat × (RegId → PhysRegId)) := fun _ => []
  committed : Fin n → Nat := fun _ => 0

namespace RenameTrace

open Rename

variable {n : Nat}

/-- The runs from `s₀` in which each thread renames in increasing sequence numbers and no squash goes back before what is
committed. -/
inductive Recorded (s₀ : Rename n) : RenameTrace n → Prop where
  | start : Recorded s₀ { stage := s₀ }
  | renameDestRegs {w : RenameTrace n} {s' : Rename n} {t : Fin n} {i : RenameInst} : Recorded s₀ w →
      (∀ p ∈ w.renamed t, p.1 < i.seqNum) → w.stage.renameDestRegs t i = .ok s' →
      Recorded s₀ { w with
        stage := s', renamed := Function.update w.renamed t ((i.seqNum, s'.lookup t) :: w.renamed t) }
  | doSquash {w : RenameTrace n} {s' : Rename n} {t : Fin n} {q : Nat} : Recorded s₀ w → w.committed t ≤ q →
      w.stage.doSquash q t = .ok s' →
      Recorded s₀ { w with
        stage := s', renamed := Function.update w.renamed t ((w.renamed t).filter (fun p => decide (p.1 ≤ q))) }
  | removeFromHistory {w : RenameTrace n} {t : Fin n} {q : Nat} : Recorded s₀ w →
      Recorded s₀ { w with
        stage := w.stage.removeFromHistory q t, committed := Function.update w.committed t (max (w.committed t) q) }

/-! ## One call -/

def SameOthers (t : Fin n) (s s' : Rename n) : Prop :=
  ∀ u, u ≠ t → s'.lookup u = s.lookup u ∧ s'.historyBuffer u = s.historyBuffer u

section Calls

variable {base : Fin n → RegId → PhysRegId} {s s' : Rename n} {t : Fin n} {q : Nat}

/-- **The destinations of one instruction**: their entries are at the head of the history. -/
theorem sound_renameDests : ∀ (ds : List DestReg) {s : Rename n}, Sound base s → renameDests t q s ds = .ok s' →
    Sound base s' ∧ SameOthers t s s' ∧
      ∃ new, s'.historyBuffer t = new ++ s.historyBuffer t ∧ ∀ e ∈ new, e.instSeqNum = q
  | [], s, hs, h => by
    cases h
    exact ⟨hs, fun u _ => ⟨rfl, rfl⟩, [], rfl, by simp⟩
  | d :: ds, s, hs, h => by
    obtain ⟨s₁, hd, h⟩ := Run.bind_eq_ok.1 h
    obtain ⟨r, s₂, hr, rfl⟩ := renameDest_eq_ok hd
    obtain ⟨hs', hothers, new, hnew, hseq⟩ := sound_renameDests ds (hs.renamed hr q) h
    refine ⟨hs', ?_, new ++ [⟨q, d.reg, r, s.lookup t d.reg⟩], ?_, ?_⟩
    · intro u hu
      obtain ⟨hl, hh⟩ := hothers u hu
      rw [lookup_setHistory, hr.lookup, Function.update_of_ne hu] at hl
      rw [historyBuffer_setHistory_of_ne _ hu, hr.historyBuffer] at hh
      exact ⟨hl, hh⟩
    · rw [hnew, historyBuffer_setHistory, List.append_assoc, List.singleton_append]
    · intro e he
      rcases List.mem_append.1 he with he | he
      · exact hseq e he
      · rw [List.mem_singleton.1 he]

/-- **A squash**: it returns, and drops the newest entries of the history. -/
theorem sound_doSquash (hs : Sound base s) (q : Nat) (t : Fin n) : ∃ s', s.doSquash q t = .ok s' ∧ Sound base s' ∧
    SameOthers t s s' ∧ s'.historyBuffer t = (s.historyBuffer t).dropWhile (fun e => decide (q < e.instSeqNum)) := by
  obtain ⟨s', hok, ⟨hs', hothers⟩, hhist⟩ := doSquash_rule (q := q) (t := t) (s := s)
    (P := fun s' => Sound base s' ∧ SameOthers t s s') (by
      rintro s' e h - ⟨hs', hothers⟩
      obtain ⟨he, hnew, -⟩ := hs'.newest
      refine ⟨_, undo_eq he, hs'.undo, fun u hu => ?_⟩
      obtain ⟨hl, hh⟩ := hothers u hu
      rw [lookup_setHistory] at hl
      rw [historyBuffer_setHistory_of_ne _ hu] at hh
      rw [lookup_setHistory, lookup_undone he hnew, Function.update_of_ne hu, historyBuffer_setHistory_of_ne _ hu,
        historyBuffer_undone]
      exact ⟨hl, hh⟩) ⟨hs, fun u _ => ⟨rfl, rfl⟩⟩
  exact ⟨s', hok, hs', hothers, hhist⟩

/-- What a commit leaves: the oldest entries are gone, and the base of the thread is where they led. -/
structure Retired (base : Fin n → RegId → PhysRegId) (s : Rename n) (t : Fin n) (q : Nat)
    (base' : Fin n → RegId → PhysRegId) (s' : Rename n) : Prop where
  sound : Sound base' s'
  others : SameOthers t s s'
  base_eq : ∀ u, u ≠ t → base' u = base u
  lookup : s'.lookup t = s.lookup t
  old : ∃ old, s.historyBuffer t = s'.historyBuffer t ++ old ∧ (∀ e ∈ old, e.instSeqNum ≤ q) ∧
    UndoLog.Leads (base t) (old.map RenameHistory.change) (base' t)

theorem retired_removeFromHistory (hs : Sound base s) (q : Nat) (t : Fin n) :
    ∃ base', Retired base s t q base' (s.removeFromHistory q t) := by
  refine removeFromHistory_rule (P := fun s' => ∃ base', Retired base s t q base' s') ?_
    ⟨base, hs, fun u _ => ⟨rfl, rfl⟩, fun _ _ => rfl, rfl, [], by simp, by simp, .nil⟩
  rintro s' e h hq ⟨base', hr⟩
  obtain ⟨old, hhist, hseq, hleads⟩ := hr.old
  refine ⟨_, hr.sound.release, ?_, ?_, ?_, e :: old, ?_, ?_, ?_⟩
  · intro u hu
    obtain ⟨hl, hh⟩ := hr.others u hu
    rw [historyBuffer_setHistory_of_ne _ hu] at hh
    rw [lookup_setHistory, lookup_release, historyBuffer_setHistory_of_ne _ hu, historyBuffer_release]
    exact ⟨hl, hh⟩
  · intro u hu
    rw [Function.update_of_ne hu]
    exact hr.base_eq u hu
  · rw [lookup_setHistory, lookup_release]
    exact hr.lookup
  · rw [historyBuffer_setHistory] at hhist ⊢
    rw [hhist, List.append_assoc, List.singleton_append]
  · intro x hx
    rcases List.mem_cons.1 hx with rfl | hx
    · exact hq
    · exact hseq x hx
  · rw [List.map_cons, Function.update_self]
    exact .cons hleads hr.sound.oldest.1

end Calls

/-! ## The order of the history -/

section Order

variable {α : Type} {h : List RenameHistory} {l : List (Nat × α)} {q : Nat}

/-- History and record are in program order, newest first, and every entry of the history is of a recorded instruction. -/
structure InOrder (h : List RenameHistory) (l : List (Nat × α)) : Prop where
  history : h.Pairwise (fun e e' => e'.instSeqNum ≤ e.instSeqNum)
  renamed : l.Pairwise (fun p p' => p'.1 < p.1)
  live : ∀ e ∈ h, ∃ p ∈ l, p.1 = e.instSeqNum

theorem InOrder.lt (ho : InOrder h l) (hl : ∀ p ∈ l, p.1 < q) {e : RenameHistory} (he : e ∈ h) : e.instSeqNum < q := by
  obtain ⟨p, hp, heq⟩ := ho.live e he
  rw [← heq]
  exact hl p hp

theorem InOrder.rename (ho : InOrder h l) (hl : ∀ p ∈ l, p.1 < q) {new : List RenameHistory}
    (hnew : ∀ e ∈ new, e.instSeqNum = q) (m : α) : InOrder (new ++ h) ((q, m) :: l) where
  history := by
    refine List.pairwise_append.2 ⟨?_, ho.history, ?_⟩
    · exact List.pairwise_of_forall_mem_list (fun e he e' he' => by rw [hnew e he, hnew e' he'])
    · intro e he e' he'
      rw [hnew e he]
      exact (ho.lt hl he').le
  renamed := List.pairwise_cons.2 ⟨hl, ho.renamed⟩
  live e he := by
    rcases List.mem_append.1 he with he | he
    · exact ⟨_, List.mem_cons_self, (hnew e he).symm⟩
    · obtain ⟨p, hp, heq⟩ := ho.live e he
      exact ⟨p, List.mem_cons_of_mem _ hp, heq⟩

theorem le_of_mem_dropWhile : ∀ {h : List RenameHistory}, h.Pairwise (fun e e' => e'.instSeqNum ≤ e.instSeqNum) →
    ∀ e ∈ h.dropWhile (fun e => decide (q < e.instSeqNum)), e.instSeqNum ≤ q
  | [], _, e, he => by simp at he
  | x :: h, hs, e, he => by
    obtain ⟨hx, hs⟩ := List.pairwise_cons.1 hs
    by_cases hq : q < x.instSeqNum
    · rw [List.dropWhile_cons_of_pos (by simpa using hq)] at he
      exact le_of_mem_dropWhile hs e he
    · rw [List.dropWhile_cons_of_neg (by simpa using hq)] at he
      rcases List.mem_cons.1 he with rfl | he
      · exact not_lt.1 hq
      · exact (hx e he).trans (not_lt.1 hq)

theorem InOrder.squash (ho : InOrder h l) : InOrder (h.dropWhile (fun e => decide (q < e.instSeqNum)))
    (l.filter (fun p => decide (p.1 ≤ q))) where
  history := ho.history.sublist (List.dropWhile_sublist _)
  renamed := ho.renamed.sublist List.filter_sublist
  live e he := by
    obtain ⟨p, hp, heq⟩ := ho.live e ((List.dropWhile_sublist _).subset he)
    refine ⟨p, List.mem_filter.2 ⟨hp, ?_⟩, heq⟩
    rw [heq]
    exact decide_eq_true (le_of_mem_dropWhile ho.history e he)

variable {old : List RenameHistory}

theorem InOrder.retire (ho : InOrder (h ++ old) l) : InOrder h l where
  history := (List.pairwise_append.1 ho.history).1
  renamed := ho.renamed
  live e he := ho.live e (List.mem_append_left old he)

theorem dropWhile_append_kept (p : RenameHistory → Bool) (hold : ∀ e ∈ old, p e = false) :
    ∀ h : List RenameHistory, (h ++ old).dropWhile p = h.dropWhile p ++ old
  | [] => by
    cases old with
    | nil => rfl
    | cons x old => exact List.dropWhile_cons_of_neg (by simp [hold x List.mem_cons_self])
  | e :: h => by
    cases he : p e with
    | true => simpa [he] using dropWhile_append_kept p hold h
    | false => simp [he]

theorem dropWhile_dropWhile_of_le {q q' : Nat} (hq : q' ≤ q) : ∀ h : List RenameHistory,
    (h.dropWhile (fun e => decide (q < e.instSeqNum))).dropWhile (fun e => decide (q' < e.instSeqNum)) =
      h.dropWhile (fun e => decide (q' < e.instSeqNum))
  | [] => rfl
  | e :: h => by
    by_cases he : q < e.instSeqNum
    · rw [List.dropWhile_cons_of_pos (by simpa using he), dropWhile_dropWhile_of_le hq h,
        List.dropWhile_cons_of_pos (by simpa using hq.trans_lt he)]
    · rw [List.dropWhile_cons_of_neg (by simpa using he)]

end Order

/-! ## The invariant over a run -/

def mapAt (m₀ : RegId → PhysRegId) (l : List (Nat × (RegId → PhysRegId))) (q : Nat) : RegId → PhysRegId :=
  ((l.find? (fun p => decide (p.1 ≤ q))).map Prod.snd).getD m₀

theorem mapAt_filter (m₀ : RegId → PhysRegId) (l : List (Nat × (RegId → PhysRegId))) (q q' : Nat) :
    mapAt m₀ (l.filter (fun p => decide (p.1 ≤ q))) q' = mapAt m₀ l (min q q') := by
  unfold mapAt
  rw [List.find?_filter]
  simp only [le_min_iff, Bool.decide_and, decide_eq_true_eq]

variable {m₀ : RegId → PhysRegId} {q : Nat}

/-- In program order, the map recorded at `q` is the one after the youngest instruction up to `q`. -/
theorem mapAt_eq_of_youngest {p : Nat × (RegId → PhysRegId)} :
    ∀ {l : List (Nat × (RegId → PhysRegId))}, l.Pairwise (fun p p' => p'.1 < p.1) → p ∈ l → p.1 ≤ q →
      (∀ p' ∈ l, p'.1 ≤ q → p'.1 ≤ p.1) → mapAt m₀ l q = p.2
  | [], _, hp, _, _ => by simp at hp
  | x :: l, hl, hp, hq, hmax => by
    obtain ⟨hx, hl⟩ := List.pairwise_cons.1 hl
    by_cases hxq : x.1 ≤ q
    · rcases List.mem_cons.1 hp with rfl | hp
      · rw [mapAt, List.find?_cons_of_pos (by simpa using hxq)]
        rfl
      · exact absurd (hmax x List.mem_cons_self hxq) (not_le.2 (hx p hp))
    · rcases List.mem_cons.1 hp with rfl | hp
      · exact absurd hq hxq
      · rw [mapAt, List.find?_cons_of_neg (by simpa using hxq)]
        exact mapAt_eq_of_youngest hl hp hq (fun p' hp' => hmax p' (List.mem_cons_of_mem x hp'))

theorem mapAt_of_none {l : List (Nat × (RegId → PhysRegId))} (hl : ∀ p ∈ l, q < p.1) : mapAt m₀ l q = m₀ := by
  have hnone : l.find? (fun p => decide (p.1 ≤ q)) = none := by
    refine List.find?_eq_none.2 (fun p hp => ?_)
    simpa using hl p hp
  rw [mapAt, hnone]
  rfl

section Thread

variable {base m₀ m : RegId → PhysRegId} {h : List RenameHistory} {l : List (Nat × (RegId → PhysRegId))} {c q : Nat}

/-- What a squash to `q` leaves of the history leads to the map recorded at `q`, for every `q` not older than `c`. -/
structure RollsBack (base m₀ : RegId → PhysRegId) (h : List RenameHistory) (l : List (Nat × (RegId → PhysRegId)))
    (c : Nat) : Prop where
  order : InOrder h l
  back : ∀ q, c ≤ q → UndoLog.Leads base
    ((h.dropWhile (fun e => decide (q < e.instSeqNum))).map RenameHistory.change) (mapAt m₀ l q)

theorem RollsBack.rename (hr : RollsBack base m₀ h l c) (hl : ∀ p ∈ l, p.1 < q) {new : List RenameHistory}
    (hnew : ∀ e ∈ new, e.instSeqNum = q) (hm : UndoLog.Leads base ((new ++ h).map RenameHistory.change) m) :
    RollsBack base m₀ (new ++ h) ((q, m) :: l) c where
  order := hr.order.rename hl hnew m
  back q' hc := by
    by_cases hq : q ≤ q'
    · -- a squash to `q'` keeps the instruction and all that is older
      have hkeep : (new ++ h).dropWhile (fun e => decide (q' < e.instSeqNum)) = new ++ h := by
        refine dropWhile_append_kept _ (fun e he => decide_eq_false (not_lt.2 ?_)) []
        rcases List.mem_append.1 he with he | he
        · rwa [hnew e he]
        · exact (hr.order.lt hl he).le.trans hq
      rw [hkeep, mapAt, List.find?_cons_of_pos (by simpa using hq)]
      exact hm
    · -- a squash to `q'` drops the entries of the instruction and comes to the older ones
      rw [mapAt, List.find?_cons_of_neg (by simpa using hq), List.dropWhile_append_of_pos]
      · exact hr.back q' hc
      · intro e he
        simpa [hnew e he] using hq

theorem RollsBack.squash (hr : RollsBack base m₀ h l c) (hc : c ≤ q) :
    RollsBack base m₀ (h.dropWhile (fun e => decide (q < e.instSeqNum))) (l.filter (fun p => decide (p.1 ≤ q))) c where
  order := hr.order.squash
  back q' hc' := by
    rw [mapAt_filter]
    rcases le_total q' q with hq | hq
    · rw [dropWhile_dropWhile_of_le hq, min_eq_right hq]
      exact hr.back q' hc'
    · have hkeep := dropWhile_append_kept (fun e => decide (q' < e.instSeqNum))
        (fun e he => decide_eq_false (not_lt.2 ((le_of_mem_dropWhile hr.order.history e he).trans hq))) []
      rw [List.nil_append] at hkeep
      rw [hkeep, min_eq_left hq]
      exact hr.back q hc

theorem RollsBack.retire {old : List RenameHistory} {base' : RegId → PhysRegId} (hr : RollsBack base m₀ (h ++ old) l c)
    (hold : ∀ e ∈ old, e.instSeqNum ≤ q) (hbase : UndoLog.Leads base (old.map RenameHistory.change) base') :
    RollsBack base' m₀ h l (max c q) where
  order := hr.order.retire
  back q' hc := by
    have hl := hr.back q' ((le_max_left c q).trans hc)
    rw [dropWhile_append_kept, List.map_append] at hl
    · obtain ⟨mid, hmid, hl⟩ := UndoLog.leads_append.1 hl
      rwa [hbase.det hmid]
    · intro e he
      exact decide_eq_false (not_lt.2 ((hold e he).trans ((le_max_right c q).trans hc)))

end Thread

structure Rollback (s₀ : Rename n) (base : Fin n → RegId → PhysRegId) (w : RenameTrace n) : Prop where
  sound : Sound base w.stage
  threads : ∀ t, RollsBack (base t) (s₀.lookup t) (w.stage.historyBuffer t) (w.renamed t) (w.committed t)

theorem Recorded.rollback {s₀ : Rename n} (h₀ : Fresh s₀) {w : RenameTrace n} (h : Recorded s₀ w) :
    ∃ base, Rollback s₀ base w := by
  induction h with
  | start =>
    refine ⟨s₀.lookup, h₀.sound, fun t => ?_⟩
    rw [show ({ stage := s₀ } : RenameTrace n).stage.historyBuffer t = [] from h₀.historyBuffer t]
    exact ⟨⟨.nil, .nil, by simp⟩, fun q _ => .nil⟩
  | @renameDestRegs w s' t i _ hlt hok ih =>
    obtain ⟨base, hs, ht⟩ := ih
    obtain ⟨hs', hothers, new, hnew, hseq⟩ := sound_renameDests i.dests hs hok
    refine ⟨base, hs', fun u => ?_⟩
    by_cases hu : u = t
    · subst hu
      have hl := hs'.leads u
      rw [hnew] at hl
      simp only [Function.update_self, hnew]
      exact (ht u).rename hlt hseq hl
    · simp only [Function.update_of_ne hu, (hothers u hu).2]
      exact ht u
  | @doSquash w s' t q _ hq hok ih =>
    obtain ⟨base, hs, ht⟩ := ih
    obtain ⟨s₁, hok', hs', hothers, hhist⟩ := sound_doSquash hs q t
    rw [hok] at hok'
    cases hok'
    refine ⟨base, hs', fun u => ?_⟩
    by_cases hu : u = t
    · subst hu
      simp only [Function.update_self, hhist]
      exact (ht u).squash hq
    · simp only [Function.update_of_ne hu, (hothers u hu).2]
      exact ht u
  | @removeFromHistory w t q _ ih =>
    obtain ⟨base, hs, ht⟩ := ih
    obtain ⟨base', hr⟩ := retired_removeFromHistory hs q t
    refine ⟨base', hr.sound, fun u => ?_⟩
    by_cases hu : u = t
    · subst hu
      obtain ⟨old, hhist, hseq, hbase⟩ := hr.old
      have hut := ht u
      rw [hhist] at hut
      simp only [Function.update_self]
      exact hut.retire hseq hbase
    · simp only [Function.update_of_ne hu, (hr.others u hu).2, hr.base_eq u hu]
      exact ht u

/-- **A squash takes the map back**: after any recorded run, and for every number not older than the last commit of the
thread, `doSquash` returns with the map that held after the youngest instruction up to that number (the initial one, if
there is none), and with the maps of the other threads as they were. -/
theorem squash_rolls_back {s₀ : Rename n} (h₀ : Fresh s₀) {w : RenameTrace n} (h : Recorded s₀ w) {t : Fin n} {q : Nat}
    (hq : w.committed t ≤ q) : ∃ s', w.stage.doSquash q t = .ok s' ∧
      (∀ p ∈ w.renamed t, p.1 ≤ q → (∀ p' ∈ w.renamed t, p'.1 ≤ q → p'.1 ≤ p.1) → s'.lookup t = p.2) ∧
      ((∀ p ∈ w.renamed t, q < p.1) → s'.lookup t = s₀.lookup t) ∧
      ∀ u, u ≠ t → s'.lookup u = w.stage.lookup u := by
  obtain ⟨base, hs, ht⟩ := h.rollback h₀
  obtain ⟨s', hok, hs', hothers, hhist⟩ := sound_doSquash hs q t
  -- the history that is left leads to the map of the stage and to the recorded one
  have hmap : s'.lookup t = mapAt (s₀.lookup t) (w.renamed t) q := by
    have hl := hs'.leads t
    rw [hhist] at hl
    exact hl.det ((ht t).back q hq)
  refine ⟨s', hok, ?_, ?_, fun u hu => (hothers u hu).1⟩
  · intro p hp hpq hmax
    rw [hmap]
    exact mapAt_eq_of_youngest (ht t).order.renamed hp hpq hmax
  · intro hnone
    rw [hmap]
    exact mapAt_of_none hnone

theorem squash_rolls_back_one : ∃ s₀ s₁ s₂ s₃ : Rename 2, create 2 sampleArchRegs samplePhysRegs = .ok s₀ ∧
    s₀.renameDestRegs 0 (sampleWriter 1) = .ok s₁ ∧ s₁.renameDestRegs 0 (sampleWriter 2) = .ok s₂ ∧
    (s₂.removeFromHistory 1 0).doSquash 1 0 = .ok s₃ ∧ s₃.lookup 0 = s₁.lookup 0 ∧
    s₃.lookup 1 = (s₂.removeFromHistory 1 0).lookup 1 := by
  obtain ⟨s₀, h₀⟩ : ∃ s₀ : Rename 2, create 2 sampleArchRegs samplePhysRegs = .ok s₀ := ⟨_, rfl⟩
  obtain ⟨s₁, h₁⟩ : ∃ s₁, s₀.renameDestRegs 0 (sampleWriter 1) = .ok s₁ := by
    cases h₀
    exact ⟨_, rfl⟩
  obtain ⟨s₂, h₂⟩ : ∃ s₂, s₁.renameDestRegs 0 (sampleWriter 2) = .ok s₂ := by
    cases h₀
    cases h₁
    exact ⟨_, rfl⟩
  have hrun := ((Recorded.start.renameDestRegs (by simp) h₁).renameDestRegs (by simp [sampleWriter]) h₂).removeFromHistory
    (t := 0) (q := 1)
  obtain ⟨s₃, h₃, hmap, -, hothers⟩ := squash_rolls_back (create_initial h₀).toFresh hrun (t := 0) (q := 1) (by simp)
  refine ⟨s₀, s₁, s₂, s₃, h₀, h₁, h₂, h₃, hmap (1, s₁.lookup 0) ?_ le_rfl ?_, hothers 1 (by decide)⟩
  · simp [sampleWriter]
  · simp

end RenameTrace
end Gem5
