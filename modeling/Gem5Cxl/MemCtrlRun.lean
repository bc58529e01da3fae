import Gem5Cxl.MemCtrl
import Mathlib.Data.List.Perm.Basic
/-!
# MemCtrlRun — every accepted read is answered once

A run is a list of the controller's steps in any order, with a log of the packets it accepted and of the pieces that were
found in the write queue on arrival and completed by `processRespondEvent`.  The write queue holds at most one entry per
burst, so a piece is found at most once; a burst helper counts exactly its pieces that still wait; so the packet is
answered, and the helper deleted, when the last of them completes.
-/
namespace Gem5

namespace MemCtrl

open List (any_eq_true append_assoc count_append flatten_cons length_append length_cons map_append mem_append mem_cons
  mem_cons_of_mem mem_cons_self mem_map)
open Run (bind_eq_ok ok_bind)

variable (p : Params)

/-! ## A vector of queues -/

theorem flatten_modify_append {α : Type} (l : List α) :
    ∀ {q : List (List α)} {i : Nat}, i < q.length → (q.modify i (· ++ l)).flatten.Perm (l ++ q.flatten)
  | [], _, h => absurd h (Nat.not_lt_zero _)
  | v :: q, 0, _ => by
    rw [List.modify_zero_cons, flatten_cons, flatten_cons, ← append_assoc]
    exact List.perm_append_comm.append_right _
  | v :: q, i + 1, h => by
    rw [List.modify_succ_cons, flatten_cons, flatten_cons]
    refine ((flatten_modify_append l (Nat.lt_of_succ_lt_succ h)).append_left v).trans ?_
    rw [← append_assoc, ← append_assoc]
    exact List.perm_append_comm.append_right _

theorem flatten_modify_eraseIdx {α : Type} {m : α} {j : Nat} :
    ∀ {q : List (List α)} {i : Nat}, q[i]?.bind (·[j]?) = some m →
      q.flatten.Perm (m :: (q.modify i (·.eraseIdx j)).flatten)
  | [], _, h => by simp at h
  | v :: q, 0, h => by
    simp only [List.getElem?_cons_zero, Option.bind_some] at h
    obtain ⟨hj, rfl⟩ := List.getElem?_eq_some_iff.1 h
    rw [List.modify_zero_cons, flatten_cons, flatten_cons]
    exact ((List.getElem_cons_eraseIdx_perm hj).symm.append_right _)
  | v :: q, i + 1, h => by
    rw [List.getElem?_cons_succ] at h
    rw [List.modify_succ_cons, flatten_cons, flatten_cons]
    exact ((flatten_modify_eraseIdx h).append_left v).trans List.perm_middle

/-! ## The write queue -/

def Sound (pc : Piece) : Prop := InBurst p pc ∧ 0 < pc.size.toNat ∧ pc.addr.toNat + pc.size.toNat < 2 ^ 64

theorem Tiles.bounds : ∀ {l : List Piece} {lo hi : Nat}, Tiles lo hi l →
    lo ≤ hi ∧ ∀ pc ∈ l, 0 < pc.size.toNat ∧ pc.addr.toNat + pc.size.toNat ≤ hi
  | [], lo, hi, h => ⟨Nat.le_of_eq h, by simp⟩
  | pc :: l, lo, hi, ⟨h1, h2, h3⟩ => by
    obtain ⟨hle, hall⟩ := Tiles.bounds h3
    refine ⟨by omega, fun pc' hpc => ?_⟩
    rcases mem_cons.1 hpc with rfl | hpc
    · exact ⟨h2, by omega⟩
    · exact hall pc' hpc

theorem sound_of_mem_split {addr : Addr} {size : Nat} (h : Fits p addr size) (hpos : 0 < size) :
    ∀ pc ∈ split p addr (BitVec.ofNat 32 size), Sound p pc := by
  intro pc hpc
  obtain ⟨htile, hin⟩ := split_tiles p h hpos
  obtain ⟨hsz, hle⟩ := htile.bounds.2 pc hpc
  have := h.2
  have := bytes_pos p
  exact ⟨hin pc hpc, hsz, by omega⟩

variable {pc : Piece} {s' : MemCtrl} {n next : Nat} {u : List Piece} {helpers : Nat → Option BurstHelper}
  {q : List MemPacket} {m : MemPacket}

theorem burstOf_of_covers {w : MemPacket} (hpc : Sound p pc) (hw : Sound p w.toPiece) (h : covers pc w = true) :
    burstOf p w.addr = burstOf p pc.addr := by
  simp only [covers, Bool.and_eq_true, decide_eq_true_eq, BitVec.le_def, BitVec.toNat_add, BitVec.toNat_setWidth] at h
  obtain ⟨hwin, -, hwend⟩ := hw
  obtain ⟨-, hpos, hpend⟩ := hpc
  rw [InBurst] at hwin
  have hdiv := burstOf_add_mod p w.addr
  have hmul : (burstOf p w.addr + 1) * bytes p = burstOf p w.addr * bytes p + bytes p := by rw [Nat.add_mul, Nat.one_mul]
  rw [burstOf, burstOf]
  refine (Nat.div_eq_of_lt_le ?_ ?_).symm
  · change burstOf p w.addr * bytes p ≤ _
    omega
  · change _ < (burstOf p w.addr + 1) * bytes p
    omega

/-- **The write queue, against its set of bursts.** -/
structure WritesOk (s : MemCtrl) : Prop where
  width : s.writeQueue.length = p.numPriorities
  total : s.totalWriteQueueSize = s.writeQueue.flatten.length
  bursts : s.isInWriteQueue = (s.writeQueue.flatten.map fun w => burstAlign p w.addr).toFinset
  single : (s.writeQueue.flatten.map fun w => burstAlign p w.addr).Nodup
  sound : ∀ w ∈ s.writeQueue.flatten, Sound p w.toPiece

structure WritesIndexed (s : MemCtrl) : Prop where
  width : s.writeQueue.length = p.numPriorities
  total : s.totalWriteQueueSize = s.writeQueue.flatten.length
  bursts : s.isInWriteQueue = (s.writeQueue.flatten.map fun w => burstAlign p w.addr).toFinset
  single : (s.writeQueue.flatten.map fun w => burstAlign p w.addr).Nodup

variable {p}

theorem WritesIndexed.ok {s : MemCtrl} (h : WritesIndexed p s) (hs : ∀ w ∈ s.writeQueue.flatten, Sound p w.toPiece) :
    WritesOk p s := ⟨h.width, h.total, h.bursts, h.single, hs⟩

theorem WritesOk.indexed {s : MemCtrl} (h : WritesOk p s) : WritesIndexed p s := ⟨h.width, h.total, h.bursts, h.single⟩

theorem WritesIndexed.perm {s : MemCtrl} (h : WritesIndexed p s) (hw : s'.writeQueue.length = p.numPriorities)
    (hq : s'.writeQueue.flatten.Perm s.writeQueue.flatten) (ht : s'.totalWriteQueueSize = s.totalWriteQueueSize)
    (hb : s'.isInWriteQueue = s.isInWriteQueue) : WritesIndexed p s' where
  width := hw
  total := by rw [ht, h.total, hq.length_eq]
  bursts := by rw [hb, h.bursts, List.toFinset_eq_of_perm _ _ (hq.map _)]
  single := (hq.map _).nodup_iff.2 h.single

theorem WritesOk.perm {s : MemCtrl} (h : WritesOk p s) (hw : s'.writeQueue.length = p.numPriorities)
    (hq : s'.writeQueue.flatten.Perm s.writeQueue.flatten) (ht : s'.totalWriteQueueSize = s.totalWriteQueueSize)
    (hb : s'.isInWriteQueue = s.isInWriteQueue) : WritesOk p s' :=
  (h.indexed.perm hw hq ht hb).ok fun w hw => h.sound w (hq.mem_iff.1 hw)

theorem countP_any_le {α : Type} (f : α → Bool) : ∀ q : List (List α), q.countP (fun v => v.any f) ≤ q.flatten.countP f
  | [] => Nat.le_refl _
  | v :: q => by
    have ih := countP_any_le f q
    rw [flatten_cons, List.countP_append, List.countP_cons]
    by_cases hv : v.any f = true
    · have hpos : 0 < v.countP f := List.countP_pos_iff.2 (any_eq_true.1 hv)
      rw [if_pos hv]
      omega
    · rw [if_neg hv]
      omega

theorem WritesOk.foundInWrQ_le {s : MemCtrl} (h : WritesOk p s) (hpc : Sound p pc) : foundInWrQ p s pc ≤ 1 := by
  rw [foundInWrQ]
  split
  · calc s.writeQueue.countP (fun vec => vec.any (covers pc))
        ≤ s.writeQueue.flatten.countP (covers pc) := countP_any_le _ _
      _ ≤ s.writeQueue.flatten.countP (fun w => burstAlign p w.addr == burstAlign p pc.addr) := by
          refine List.countP_mono_left fun w hw hc => ?_
          rw [beq_iff_eq, burstAlign_eq_iff]
          exact burstOf_of_covers p hpc (h.sound w hw) hc
      _ = (s.writeQueue.flatten.map fun w => burstAlign p w.addr).count (burstAlign p pc.addr) := by
          rw [List.count, List.countP_map]
          rfl
      _ ≤ 1 := List.nodup_iff_count_le_one.1 h.single _
  · exact Nat.zero_le _

def OnlyWrites (s s' : MemCtrl) : Prop :=
  s' = { s with
    writeQueue := s'.writeQueue
    isInWriteQueue := s'.isInWriteQueue
    totalWriteQueueSize := s'.totalWriteQueueSize }

theorem WritesIndexed.writePiece {s : MemCtrl} (h : WritesIndexed p s) (pkt : Nat) {prio : Nat}
    (hprio : prio < p.numPriorities) (pc : Piece) (hroom : s.totalWriteQueueSize < p.writeBufferSize) :
    ∃ s', writePiece p pkt prio s pc = .ok s' ∧ WritesIndexed p s' ∧ OnlyWrites s s' ∧
      s'.totalWriteQueueSize ≤ s.totalWriteQueueSize + 1 ∧
      ∀ w ∈ s'.writeQueue.flatten, w ∈ s.writeQueue.flatten ∨ w.toPiece = pc := by
  rw [MemCtrl.writePiece]
  dsimp only
  by_cases hin : burstAlign p pc.addr ∈ s.isInWriteQueue
  · rw [if_pos hin]
    exact ⟨s, rfl, h, rfl, by omega, fun w hw => .inl hw⟩
  · rw [if_neg hin]
    have hperm := flatten_modify_append [({ addr := pc.addr, size := pc.size, pkt } : MemPacket)]
      (q := s.writeQueue) (i := prio) (by rw [h.width]; exact hprio)
    have hmap := hperm.map fun w => burstAlign p w.addr
    rw [map_append, List.map_singleton] at hmap
    have hok : WritesIndexed p { s with
        writeQueue := s.writeQueue.modify prio (· ++ [{ addr := pc.addr, size := pc.size, pkt }])
        isInWriteQueue := insert (burstAlign p pc.addr) s.isInWriteQueue
        totalWriteQueueSize := s.totalWriteQueueSize + 1 } := by
      refine ⟨?_, ?_, ?_, ?_⟩
      · rw [List.length_modify, h.width]
      · rw [hperm.length_eq, h.total, length_append, List.length_singleton, Nat.add_comm]
      · dsimp only
        rw [List.toFinset_eq_of_perm _ _ hmap, List.singleton_append, List.toFinset_cons, ← h.bursts]
      · refine hmap.nodup_iff.2 (List.nodup_cons.2 ⟨?_, h.single⟩)
        rwa [h.bursts, List.mem_toFinset] at hin
    refine ⟨_, ?_, hok, rfl, Nat.le_refl _, fun w hw => ?_⟩
    · have hcard : s.totalWriteQueueSize + 1 = (insert (burstAlign p pc.addr) s.isInWriteQueue).card := by
        have hb := hok.bursts
        dsimp only at hb
        rw [hb, List.toFinset_card_of_nodup hok.single, List.length_map]
        exact hok.total
      simp only [hroom, ← hcard, decide_true, assertThat_true, ok_bind, Run.pure_eq_ok]
    · rcases mem_cons.1 (hperm.mem_iff.1 hw) with rfl | hw
      · exact .inr rfl
      · exact .inl hw

theorem OnlyWrites.trans {s s'' : MemCtrl} (h : OnlyWrites s s') (h' : OnlyWrites s' s'') : OnlyWrites s s'' := by
  rw [OnlyWrites] at h h' ⊢
  rw [h', h]

theorem WritesIndexed.writePieces (pkt : Nat) {prio : Nat} (hprio : prio < p.numPriorities) :
    ∀ {pcs : List Piece} {s : MemCtrl}, WritesIndexed p s → s.totalWriteQueueSize + pcs.length ≤ p.writeBufferSize →
      ∃ s', writePieces p pkt prio pcs s = .ok s' ∧ WritesIndexed p s' ∧ OnlyWrites s s' ∧
        s'.totalWriteQueueSize ≤ s.totalWriteQueueSize + pcs.length ∧
        ∀ w ∈ s'.writeQueue.flatten, w ∈ s.writeQueue.flatten ∨ w.toPiece ∈ pcs
  | [], s, h, _ => ⟨s, rfl, h, rfl, Nat.le_refl _, fun _ hw => .inl hw⟩
  | pc :: pcs, s, h, hroom => by
    rw [length_cons] at hroom
    obtain ⟨s₁, h₁, hok₁, hsame₁, hle₁, hmem₁⟩ := h.writePiece pkt hprio pc (by omega)
    have hroom₁ : s₁.totalWriteQueueSize + pcs.length ≤ p.writeBufferSize := by omega
    obtain ⟨s₂, h₂, hok₂, hsame₂, hle₂, hmem₂⟩ := WritesIndexed.writePieces pkt hprio hok₁ hroom₁
    refine ⟨s₂, ?_, hok₂, hsame₁.trans hsame₂, by rw [length_cons]; omega, fun w hw => ?_⟩
    · rw [MemCtrl.writePieces, h₁]
      exact h₂
    · rw [mem_cons]
      have := hmem₁ w
      have := hmem₂ w hw
      tauto

theorem WritesOk.writePieces (pkt : Nat) {prio : Nat} (hprio : prio < p.numPriorities) {pcs : List Piece} {s : MemCtrl}
    (h : WritesOk p s) (hall : ∀ pc ∈ pcs, Sound p pc) (hroom : s.totalWriteQueueSize + pcs.length ≤ p.writeBufferSize) :
    ∃ s', writePieces p pkt prio pcs s = .ok s' ∧ WritesOk p s' ∧ OnlyWrites s s' ∧
      s'.totalWriteQueueSize ≤ s.totalWriteQueueSize + pcs.length := by
  obtain ⟨s', hs', hok, hsame, hle, hmem⟩ := h.indexed.writePieces pkt hprio hroom
  exact ⟨s', hs', hok.ok fun w hw => (hmem w hw).elim (h.sound w) (hall _), hsame, hle⟩

theorem WritesIndexed.issueWrite {s : MemCtrl} (h : WritesIndexed p s) {prio i : Nat}
    (hs : issueWrite p s prio i = .ok s') : WritesIndexed p s' ∧ s'.totalWriteQueueSize ≤ s.totalWriteQueueSize ∧
      (∀ w ∈ s'.writeQueue.flatten, w ∈ s.writeQueue.flatten) ∧
      ∃ retry, s' = { s with
        writeQueue := s'.writeQueue
        isInWriteQueue := s'.isInWriteQueue
        totalWriteQueueSize := s'.totalWriteQueueSize
        retryWrReq := retry } := by
  rw [MemCtrl.issueWrite] at hs
  cases hm : s.writeQueue[prio]?.bind (·[i]?) with
  | none =>
    rw [hm] at hs
    cases hs
    exact ⟨h, Nat.le_refl _, fun _ hw => hw, s'.retryWrReq, rfl⟩
  | some m =>
    rw [hm] at hs
    obtain ⟨-, -, hs⟩ := bind_eq_ok.1 hs
    cases hs
    have hperm := flatten_modify_eraseIdx hm
    have hlen := hperm.length_eq
    rw [length_cons, ← h.total] at hlen
    have hmap := hperm.map fun w => burstAlign p w.addr
    rw [List.map_cons] at hmap
    have hnodup := hmap.nodup_iff.1 h.single
    refine ⟨⟨?_, ?_, ?_, (List.nodup_cons.1 hnodup).2⟩, Nat.sub_le _ _,
      fun w hw => hperm.mem_iff.2 (mem_cons_of_mem _ hw), _, rfl⟩
    · simp only [retryWrite, List.length_modify, h.width]
    · simp only [retryWrite]
      omega
    · simp only [retryWrite, h.bursts]
      rw [List.toFinset_eq_of_perm _ _ hmap, List.toFinset_cons,
        Finset.erase_insert (by simpa using (List.nodup_cons.1 hnodup).1)]

/-! ## The loop over a read's pieces -/

def helperFor (s : MemCtrl) (count : Nat) : Option Nat := if 1 < count then some s.nextHelper else none

def entries (s : MemCtrl) (pkt count : Nat) (u : List Piece) : List MemPacket :=
  u.map fun pc => { addr := pc.addr, size := pc.size, pkt, burstHelper := helperFor s count }

/-- **The loop, once it has queued the pieces `u` and found `n`.** -/
def loopAt (s : MemCtrl) (pkt prio count : Nat) (u : List Piece) (n : Nat) : ReadLoop where
  ctrl := { s with
    readQueue := s.readQueue.modify prio (· ++ entries s pkt count u)
    totalReadQueueSize := s.totalReadQueueSize + u.length
    helpers := fun h => if 1 < count ∧ u ≠ [] ∧ h = s.nextHelper then some { burstCount := count } else s.helpers h
    nextHelper := if 1 < count ∧ u ≠ [] then s.nextHelper + 1 else s.nextHelper }
  pktsServicedByWrQ := n
  burstHelper := if u = [] then none else helperFor s count

theorem loopAt_nil (s : MemCtrl) (pkt prio count : Nat) : loopAt s pkt prio count [] 0 = { ctrl := s } := by
  have hmod : s.readQueue.modify prio (fun v => v) = s.readQueue := List.modify_id _ _
  simp [loopAt, entries, hmod]

variable {s : MemCtrl} {pkt prio count : Nat}

theorem allocate_loopAt (s : MemCtrl) (pkt prio count : Nat) (u : List Piece) (n : Nat) :
    ((loopAt s pkt prio count u n).allocate count).burstHelper = helperFor s count ∧
    ((loopAt s pkt prio count u n).allocate count).pktsServicedByWrQ = n ∧
    ((loopAt s pkt prio count u n).allocate count).ctrl = { (loopAt s pkt prio count u n).ctrl with
      helpers := fun h => if 1 < count ∧ h = s.nextHelper then some { burstCount := count } else s.helpers h
      nextHelper := if 1 < count then s.nextHelper + 1 else s.nextHelper } := by
  by_cases hc : 1 < count <;> by_cases hu : u = [] <;> simp [ReadLoop.allocate, loopAt, helperFor, hc, hu]

theorem readPiece_loopAt (hroom : s.totalReadQueueSize + s.respQueue.length + u.length + 1 ≤ p.readBufferSize) :
    readPiece p pkt prio count (loopAt s pkt prio count u n) pc = .ok (loopAt s pkt prio count
      (if foundInWrQ p s pc = 0 then u ++ [pc] else u) (n + foundInWrQ p s pc)) := by
  have hfound : foundInWrQ p (loopAt s pkt prio count u n).ctrl pc = foundInWrQ p s pc := rfl
  rw [readPiece, hfound]
  dsimp only
  by_cases h : foundInWrQ p s pc = 0
  · obtain ⟨hh, hn, hc⟩ := allocate_loopAt s pkt prio count u n
    generalize (loopAt s pkt prio count u n).allocate count = l at hh hn hc ⊢
    obtain ⟨c, n', b⟩ := l
    dsimp only at hh hn hc ⊢
    subst hh hn hc
    rw [if_neg (not_not.2 h), if_pos h, h, Nat.add_zero]
    have hfull : ¬ p.readBufferSize < s.totalReadQueueSize + (u.length + (s.respQueue.length + 1)) := by omega
    have hmod : (s.readQueue.modify prio (· ++ entries s pkt count u)).modify prio
        (· ++ [{ addr := pc.addr, size := pc.size, pkt, burstHelper := helperFor s count }]) =
        s.readQueue.modify prio (· ++ entries s pkt count (u ++ [pc])) := by
      rw [List.modify_modify_eq]
      congr 1
      funext v
      simp [entries, Function.comp]
    simp [readQueueFull, loopAt, hfull, hmod, Nat.add_assoc]
  · rw [if_pos h, if_neg h]
    rfl

def unfound (p : Params) (s : MemCtrl) (pcs : List Piece) : List Piece := pcs.filter fun pc => foundInWrQ p s pc == 0

def found (p : Params) (s : MemCtrl) (pcs : List Piece) : List Piece := pcs.filter fun pc => foundInWrQ p s pc != 0

theorem readPieces_loopAt : ∀ {pcs u : List Piece} {n : Nat},
    s.totalReadQueueSize + s.respQueue.length + u.length + pcs.length ≤ p.readBufferSize →
    readPieces p pkt prio count pcs (loopAt s pkt prio count u n) =
      .ok (loopAt s pkt prio count (u ++ unfound p s pcs) (n + (pcs.map (foundInWrQ p s)).sum))
  | [], u, n, _ => by simp [readPieces, unfound]
  | pc :: pcs, u, n, hroom => by
    rw [length_cons] at hroom
    rw [readPieces, readPiece_loopAt (by omega), ok_bind, readPieces_loopAt]
    · congr 1
      by_cases h : foundInWrQ p s pc = 0
      · simp [unfound, h]
      · simp [unfound, h, Nat.add_assoc]
    · split
      · rw [length_append, List.length_singleton]
        omega
      · omega

theorem length_found_add_unfound (pcs : List Piece) : (found p s pcs).length + (unfound p s pcs).length = pcs.length := by
  have := List.length_eq_length_filter_add (l := pcs) (fun pc => foundInWrQ p s pc == 0)
  simp only [found, unfound, bne]
  omega

theorem WritesOk.sum_found (h : WritesOk p s) : ∀ {pcs : List Piece}, (∀ pc ∈ pcs, Sound p pc) →
    (pcs.map (foundInWrQ p s)).sum = (found p s pcs).length
  | [], _ => rfl
  | pc :: pcs, hall => by
    have ih := h.sum_found fun x hx => hall x (mem_cons_of_mem _ hx)
    have hle := h.foundInWrQ_le (hall pc mem_cons_self)
    simp only [found] at ih ⊢
    rw [List.map_cons, List.sum_cons, ih, List.filter_cons]
    rcases Nat.le_one_iff_eq_zero_or_eq_one.1 hle with h0 | h1
    · simp [h0]
    · simp [h1, Nat.add_comm]

/-! ## Burst helpers -/

/-- The pieces that wait for memory: queued, or issued and not yet completed. -/
def waiting (s : MemCtrl) : List MemPacket := s.readQueue.flatten ++ s.respQueue

def shares (q : List MemPacket) (h : Nat) : Nat := q.countP fun m => m.burstHelper == some h

/-- **The helpers, against the pieces that wait.**  A live helper counts the pieces that wait and some do; a piece points
to a live helper, which it shares with the pieces of its packet and no others; a piece with no helper is alone. -/
structure HelpersOk (helpers : Nat → Option BurstHelper) (nextHelper : Nat) (q : List MemPacket) : Prop where
  live : ∀ h b, helpers h = some b → h < nextHelper ∧ b.burstsServiced + shares q h = b.burstCount ∧ 0 < shares q h
  held : ∀ m ∈ q, ∀ h, m.burstHelper = some h → ∃ b, helpers h = some b
  own : ∀ m ∈ q, ∀ h, m.burstHelper = some h → ∀ m' ∈ q, m'.burstHelper = some h ↔ m'.pkt = m.pkt
  alone : ∀ m ∈ q, m.burstHelper = none → q.countP (fun m' => m'.pkt == m.pkt) = 1

theorem HelpersOk.perm {q' : List MemPacket} (h : HelpersOk helpers next q) (hq : q.Perm q') :
    HelpersOk helpers next q' where
  live x b hx := by
    rw [shares, ← hq.countP_eq]
    exact h.live x b hx
  held m hm := h.held m (hq.mem_iff.2 hm)
  own m hm x hx m' hm' := h.own m (hq.mem_iff.2 hm) x hx m' (hq.mem_iff.2 hm')
  alone m hm hn := by
    rw [← hq.countP_eq]
    exact h.alone m (hq.mem_iff.2 hm) hn

theorem shares_cons (m : MemPacket) (q : List MemPacket) (h : Nat) :
    shares (m :: q) h = shares q h + if m.burstHelper = some h then 1 else 0 := by
  simp [shares, List.countP_cons]

theorem shares_pos {h : Nat} : 0 < shares q h ↔ ∃ m ∈ q, m.burstHelper = some h := by
  simp [shares, List.countP_pos_iff]

theorem HelpersOk.complete_alone (h : HelpersOk helpers next (m :: q)) (hm : m.burstHelper = none) :
    HelpersOk helpers next q ∧ ∀ m' ∈ q, m'.pkt ≠ m.pkt := by
  have hcount := h.alone m mem_cons_self hm
  rw [List.countP_cons_of_pos (by simp)] at hcount
  have hnone : ∀ m' ∈ q, m'.pkt ≠ m.pkt := by
    have hzero : q.countP (fun m' => m'.pkt == m.pkt) = 0 := by omega
    simpa using List.countP_eq_zero.1 hzero
  refine ⟨⟨?_, ?_, ?_, ?_⟩, hnone⟩
  · intro x b hx
    have := h.live x b hx
    rw [shares_cons, hm] at this
    simpa using this
  · exact fun m' hm' => h.held m' (mem_cons_of_mem _ hm')
  · exact fun m' hm' x hx m'' hm'' => h.own m' (mem_cons_of_mem _ hm') x hx m'' (mem_cons_of_mem _ hm'')
  · intro m' hm' hn
    have := h.alone m' (mem_cons_of_mem _ hm') hn
    rwa [List.countP_cons_of_neg (by simpa using (hnone m' hm').symm)] at this

/-- **A piece with a helper**: the helper is deleted with the last of the packet's pieces, and counts the others before. -/
theorem HelpersOk.complete_shared (h : HelpersOk helpers next (m :: q)) {x : Nat} (hm : m.burstHelper = some x) :
    ∃ b, helpers x = some b ∧
      (b.burstsServiced + 1 = b.burstCount → HelpersOk (fun y => if y = x then none else helpers y) next q ∧
        ∀ m' ∈ q, m'.pkt ≠ m.pkt) ∧
      (b.burstsServiced + 1 ≠ b.burstCount → HelpersOk (fun y => if y = x then
        some { b with burstsServiced := b.burstsServiced + 1 } else helpers y) next q ∧ ∃ m' ∈ q, m'.pkt = m.pkt) := by
  obtain ⟨b, hb⟩ := h.held m mem_cons_self x hm
  obtain ⟨hlt, hcount, -⟩ := h.live x b hb
  rw [shares_cons, if_pos hm] at hcount
  have hown := h.own m mem_cons_self x hm
  have hlive : ∀ y c, y ≠ x → helpers y = some c → y < next ∧ c.burstsServiced + shares q y = c.burstCount ∧
      0 < shares q y := by
    intro y c hy hc
    have := h.live y c hc
    rw [shares_cons, hm, if_neg (by simpa using Ne.symm hy)] at this
    exact this
  have hrest : ∀ m' ∈ q, ∀ y, m'.burstHelper = some y → ∀ m'' ∈ q, m''.burstHelper = some y ↔ m''.pkt = m'.pkt :=
    fun m' hm' y hy m'' hm'' => h.own m' (mem_cons_of_mem _ hm') y hy m'' (mem_cons_of_mem _ hm'')
  have halone : ∀ m' ∈ q, m'.burstHelper = none → q.countP (fun m'' => m''.pkt == m'.pkt) = 1 := by
    intro m' hm' hn
    have hne : m.pkt ≠ m'.pkt := by
      intro he
      rw [(hown m' (mem_cons_of_mem _ hm')).2 he.symm] at hn
      cases hn
    have := h.alone m' (mem_cons_of_mem _ hm') hn
    rwa [List.countP_cons_of_neg (by simpa using hne)] at this
  refine ⟨b, hb, fun he => ⟨⟨?_, ?_, hrest, halone⟩, ?_⟩, fun hne => ⟨⟨?_, ?_, hrest, halone⟩, ?_⟩⟩
  · intro y c hc
    by_cases hy : y = x
    · simp [hy] at hc
    · exact hlive y c hy (by simpa [hy] using hc)
  · intro m' hm' y hy
    have hyx : y ≠ x := by
      rintro rfl
      have : 0 < shares q y := shares_pos.2 ⟨m', hm', hy⟩
      omega
    simpa [hyx] using h.held m' (mem_cons_of_mem _ hm') y hy
  · intro m' hm' hpkt
    have : 0 < shares q x := shares_pos.2 ⟨m', hm', (hown m' (mem_cons_of_mem _ hm')).2 hpkt⟩
    omega
  · intro y c hc
    by_cases hy : y = x
    · subst hy
      simp only [if_true, Option.some.injEq] at hc
      subst hc
      exact ⟨hlt, by dsimp only; omega, by omega⟩
    · exact hlive y c hy (by simpa [hy] using hc)
  · intro m' hm' y hy
    by_cases hyx : y = x
    · simp [hyx]
    · simpa [hyx] using h.held m' (mem_cons_of_mem _ hm') y hy
  · obtain ⟨m', hm', hx'⟩ := shares_pos.1 (show 0 < shares q x by omega)
    exact ⟨m', hm', (hown m' (mem_cons_of_mem _ hm')).1 hx'⟩

/-- **A new packet's pieces**: they share a new helper, or are one. -/
theorem HelpersOk.arrive (h : HelpersOk s.helpers s.nextHelper q) (hfresh : ∀ m ∈ q, m.pkt ≠ pkt)
    (hcount : n + u.length = count) (hu : u ≠ []) :
    HelpersOk (fun h => if 1 < count ∧ h = s.nextHelper then some { burstCount := count, burstsServiced := n } else s.helpers h)
      (if 1 < count then s.nextHelper + 1 else s.nextHelper) (entries s pkt count u ++ q) := by
  have hpos : 0 < u.length := List.length_pos_of_ne_nil hu
  have hmem : ∀ m ∈ entries s pkt count u, m.pkt = pkt ∧ m.burstHelper = helperFor s count := by
    intro m hm
    obtain ⟨pc, -, rfl⟩ := mem_map.1 hm
    exact ⟨rfl, rfl⟩
  have hold : ∀ m ∈ q, ∀ x, m.burstHelper = some x → x < s.nextHelper := by
    intro m hm x hx
    obtain ⟨b, hb⟩ := h.held m hm x hx
    exact (h.live x b hb).1
  have hqnew : shares q s.nextHelper = 0 := by
    by_contra hne
    obtain ⟨m, hm, hx⟩ := shares_pos.1 (Nat.pos_of_ne_zero hne)
    exact absurd (hold m hm _ hx) (Nat.lt_irrefl _)
  have hshares : ∀ x, shares (entries s pkt count u ++ q) x =
      (if helperFor s count = some x then u.length else 0) + shares q x := by
    intro x
    rw [shares, shares, List.countP_append, entries, List.countP_map]
    congr 1
    by_cases hx : helperFor s count = some x
    · rw [if_pos hx]
      refine List.countP_eq_length.2 fun pc _ => ?_
      simp [hx]
    · rw [if_neg hx]
      refine List.countP_eq_zero.2 fun pc _ => ?_
      simp [hx]
  have hzero : ∀ m ∈ q, (entries s pkt count u).countP (fun m' => m'.pkt == m.pkt) = 0 := by
    intro m hm
    refine List.countP_eq_zero.2 fun m' hm' => ?_
    simpa [(hmem m' hm').1] using Ne.symm (hfresh m hm)
  have hfor : ∀ x, helperFor s count = some x ↔ 1 < count ∧ s.nextHelper = x := fun x => by simp [helperFor]
  refine ⟨?_, ?_, ?_, ?_⟩
  · intro x b hx
    by_cases hx' : 1 < count ∧ x = s.nextHelper
    · obtain ⟨hc, rfl⟩ := hx'
      simp only [hc, and_self, if_true, Option.some.injEq] at hx
      subst hx
      rw [if_pos hc, hshares, if_pos ((hfor _).2 ⟨hc, rfl⟩), hqnew]
      exact ⟨by omega, by dsimp only; omega, by omega⟩
    · rw [if_neg hx'] at hx
      obtain ⟨h1, h2⟩ := h.live x b hx
      rw [hshares, if_neg fun e => hx' (((hfor x).1 e).imp_right Eq.symm), Nat.zero_add]
      exact ⟨by split <;> omega, h2⟩
  · intro m hm x hx
    rcases mem_append.1 hm with hm | hm
    · rw [(hmem m hm).2, hfor] at hx
      exact ⟨_, if_pos ⟨hx.1, hx.2.symm⟩⟩
    · obtain ⟨b, hb⟩ := h.held m hm x hx
      have hlt := hold m hm x hx
      exact ⟨b, (if_neg (by omega)).trans hb⟩
  · intro m hm x hx m' hm'
    rcases mem_append.1 hm with hm | hm <;> rcases mem_append.1 hm' with hm' | hm'
    · rw [(hmem m hm).2] at hx
      simp [hmem m' hm', hmem m hm, hx]
    · rw [(hmem m hm).2, hfor] at hx
      have hne : m'.burstHelper ≠ some x := fun he => by
        have := hold m' hm' x he
        omega
      simp [hne, (hmem m hm).1, hfresh m' hm']
    · have hlt := hold m hm x hx
      have hne : helperFor s count ≠ some x := fun he => by
        have := (hfor x).1 he
        omega
      simp [hmem m' hm', hne, Ne.symm (hfresh m hm)]
    · exact h.own m hm x hx m' hm'
  · intro m hm hn
    rw [List.countP_append]
    rcases mem_append.1 hm with hm | hm
    · have hone : ¬ 1 < count := fun hc => by
        rw [(hmem m hm).2, (hfor _).2 ⟨hc, rfl⟩] at hn
        cases hn
      have hq : q.countP (fun m' => m'.pkt == m.pkt) = 0 := by
        refine List.countP_eq_zero.2 fun m' hm' => ?_
        simpa [(hmem m hm).1] using hfresh m' hm'
      have he : (entries s pkt count u).countP (fun m' => m'.pkt == m.pkt) = (entries s pkt count u).length := by
        refine List.countP_eq_length.2 fun m' hm' => ?_
        simp [(hmem m hm).1, (hmem m' hm').1]
      rw [hq, he, entries, List.length_map]
      omega
    · rw [hzero m hm, Nat.zero_add]
      exact h.alone m hm hn

/-! ## Runs -/

/-- A controller, with the packets it accepted (a packet's pointer is its place) and what became of their pieces. -/
structure History where
  ctrl : MemCtrl
  accepted : List Packet := []
  found : List (Nat × Piece) := []
  completed : List (Nat × Piece) := []

/-- The controller's steps.  The packet, the priority it is given, the entry that is issued and the rearrangement of the
queues are the environment's choice. -/
inductive Event where
  | recvTimingReq (packet : Packet) (prio : Nat)
  | escalate (reads writes : List (List MemPacket))
  | issueRead (prio i : Nat)
  | issueWrite (prio i : Nat)
  | processRespondEvent

variable (p)

def splitPacket (packet : Packet) : List Piece := split p packet.addr (BitVec.ofNat 32 packet.size)

def History.received (r : History) (packet : Packet) (res : MemCtrl × Bool) : History :=
  if res.2 then
    { r with
      ctrl := res.1
      accepted := r.accepted ++ [packet]
      found := r.found ++ if packet.isWrite then [] else
        (MemCtrl.found p r.ctrl (splitPacket p packet)).map (r.accepted.length, ·) }
  else { r with ctrl := res.1 }

def Rearranges (s : MemCtrl) (reads writes : List (List MemPacket)) : Prop :=
  reads.length = p.numPriorities ∧ writes.length = p.numPriorities ∧
    reads.flatten.Perm s.readQueue.flatten ∧ writes.flatten.Perm s.writeQueue.flatten

instance (s : MemCtrl) (reads writes : List (List MemPacket)) : Decidable (Rearranges p s reads writes) :=
  inferInstanceAs (Decidable (_ ∧ _ ∧ _ ∧ _))

def exec (r : History) : Event → Except Failure History
  | .recvTimingReq packet prio => do
    let res ← MemCtrl.recvTimingReq p r.ctrl packet r.accepted.length prio
    return r.received p packet res
  | .escalate reads writes =>
    if Rearranges p r.ctrl reads writes then
      .ok { r with ctrl := { r.ctrl with readQueue := reads, writeQueue := writes } }
    else .ok r
  | .issueRead prio i => do
    let ctrl ← MemCtrl.issueRead p r.ctrl prio i
    return { r with ctrl }
  | .issueWrite prio i => do
    let ctrl ← MemCtrl.issueWrite p r.ctrl prio i
    return { r with ctrl }
  | .processRespondEvent => do
    let ctrl ← MemCtrl.processRespondEvent r.ctrl
    return { r with ctrl, completed := r.completed ++ (r.ctrl.respQueue.take 1).map fun m => (m.pkt, m.toPiece) }

def execAll : History → List Event → Except Failure History
  | r, [] => .ok r
  | r, e :: es => do
    let r ← exec p r e
    execAll r es

def Event.Fits : Event → Prop
  | .recvTimingReq packet _ => MemCtrl.Fits p packet.addr packet.size
  | _ => True

/-- The pieces of the reads among `accepted`, from the pointer `i` on. -/
def readPiecesOf : Nat → List Packet → List (Nat × Piece)
  | _, [] => []
  | i, packet :: l => (if packet.isWrite then [] else (splitPacket p packet).map (i, ·)) ++ readPiecesOf (i + 1) l

theorem readPiecesOf_append : ∀ (l l' : List Packet) (i : Nat),
    readPiecesOf p i (l ++ l') = readPiecesOf p i l ++ readPiecesOf p (i + l.length) l'
  | [], _, _ => rfl
  | packet :: l, l', i => by
    rw [List.cons_append, readPiecesOf, readPiecesOf_append l l' (i + 1), readPiecesOf, append_assoc,
      length_cons, Nat.add_right_comm, Nat.add_assoc]

variable {p}

def MemPacket.tag (m : MemPacket) : Nat × Piece := (m.pkt, m.toPiece)

/-- **The invariant of a run.**  `answered`: a packet is answered, or waits, or was never accepted. -/
structure Inv (p : Params) (r : History) : Prop where
  width : r.ctrl.readQueue.length = p.numPriorities
  total : r.ctrl.totalReadQueueSize = r.ctrl.readQueue.flatten.length
  capacity : r.ctrl.totalReadQueueSize + r.ctrl.respQueue.length ≤ p.readBufferSize
  writes : WritesOk p r.ctrl
  writeCapacity : r.ctrl.totalWriteQueueSize ≤ p.writeBufferSize
  inBurst : ∀ m ∈ waiting r.ctrl, m.size ≤ p.burstSize
  helpers : HelpersOk r.ctrl.helpers r.ctrl.nextHelper (waiting r.ctrl)
  answered : ∀ i, r.ctrl.responses.count i + ((waiting r.ctrl).any (·.pkt == i)).toNat =
    if i < r.accepted.length then 1 else 0
  ledger : (r.found ++ r.completed ++ (waiting r.ctrl).map MemPacket.tag).Perm (readPiecesOf p 0 r.accepted)
  sized : ∀ packet ∈ r.accepted, Fits p packet.addr packet.size ∧ 0 < packet.size

theorem inv_create : Inv p { ctrl := create p } where
  width := List.length_replicate
  total := by simp [create]
  capacity := Nat.zero_le _
  writes := by
    refine ⟨List.length_replicate, ?_, ?_, ?_, ?_⟩ <;> simp [create]
  writeCapacity := Nat.zero_le _
  inBurst := by simp [create, waiting]
  helpers := by
    refine ⟨?_, ?_, ?_, ?_⟩ <;> simp [create, waiting]
  answered i := by simp [create, waiting]
  ledger := by simp [create, waiting, readPiecesOf]
  sized := by simp

variable {r : History}

theorem Inv.fresh (h : Inv p r) (hm : m ∈ waiting r.ctrl) : m.pkt < r.accepted.length := by
  have ha := h.answered m.pkt
  have hany : (waiting r.ctrl).any (·.pkt == m.pkt) = true := any_eq_true.2 ⟨m, hm, by simp⟩
  rw [hany, Bool.toNat_true] at ha
  by_contra hlt
  rw [if_neg hlt] at ha
  omega

theorem Inv.accept (h : Inv p r) (packet : Packet) (i : Nat) : (if i < (r.accepted ++ [packet]).length then 1 else 0) =
    r.ctrl.responses.count i + ((waiting r.ctrl).any (·.pkt == i)).toNat + if r.accepted.length = i then 1 else 0 := by
  rw [h.answered i, length_append, List.length_singleton]
  split <;> split <;> split <;> omega

theorem Inv.sized_append (h : Inv p r) {packet : Packet} (hf : Fits p packet.addr packet.size) (hpos : 0 < packet.size) :
    ∀ x ∈ r.accepted ++ [packet], Fits p x.addr x.size ∧ 0 < x.size := by
  intro x hx
  rcases mem_append.1 hx with hx | hx
  · exact h.sized x hx
  · rw [List.mem_singleton.1 hx]
    exact ⟨hf, hpos⟩

theorem Inv.keep (h : Inv p r) {s : MemCtrl} (hwidth : s.readQueue.length = p.numPriorities)
    (hq : (waiting s).Perm (waiting r.ctrl)) (htotal : s.totalReadQueueSize = s.readQueue.flatten.length)
    (hw : WritesOk p s) (hwc : s.totalWriteQueueSize ≤ p.writeBufferSize) (hh : s.helpers = r.ctrl.helpers)
    (hn : s.nextHelper = r.ctrl.nextHelper) (hr : s.responses = r.ctrl.responses) : Inv p { r with ctrl := s } where
  width := hwidth
  total := htotal
  capacity := by
    have hlen := hq.length_eq
    have hcap := h.capacity
    simp only [waiting, length_append] at hlen
    rw [h.total] at hcap
    dsimp only
    omega
  writes := hw
  writeCapacity := hwc
  inBurst m hm := h.inBurst m (hq.mem_iff.1 hm)
  helpers := by
    dsimp only
    rw [hh, hn]
    exact h.helpers.perm hq.symm
  answered i := by
    dsimp only
    rw [hr, hq.any_eq]
    exact h.answered i
  ledger := ((hq.map _).append_left _).trans h.ledger
  sized := h.sized

/-! ## Arrival -/

structure Admissible (p : Params) (packet : Packet) (prio : Nat) : Prop where
  notResponding : packet.cacheResponding = false
  kind : (packet.isRead || packet.isWrite) = true
  inRange : p.range.contains packet.addr = true
  prioOk : prio < p.numPriorities
  nonempty : 0 < packet.size

theorem size_ne_zero {packet : Packet} : (BitVec.ofNat 32 packet.size != 0) = true ↔ 0 < packet.size := by
  have := packet.size_lt
  rw [bne_iff_ne, ne_eq, ← BitVec.toNat_inj]
  simp only [BitVec.toNat_ofNat, BitVec.ofNat_eq_ofNat]
  omega

variable {packet : Packet}

theorem recvTimingReq_eq (h : Admissible p packet prio) : recvTimingReq p s packet pkt prio =
    let count := pktCount p packet.addr (BitVec.ofNat 32 packet.size)
    if packet.isWrite then
      if writeQueueFull p s count.toNat then .ok ({ s with retryWrReq := true }, false)
      else (addToWriteQueue p s packet pkt prio count).map (·, true)
    else if readQueueFull p s count.toNat then .ok ({ s with retryRdReq := true }, false)
    else (addToReadQueue p s packet pkt prio count).map fun res => (res.1, true) := by
  have hsize := size_ne_zero.2 h.nonempty
  have hkind := h.kind
  simp only [recvTimingReq, h.notResponding, hkind, h.inRange, hsize, h.prioOk, panicIf, decide_true, assertThat_true,
    ok_bind, Bool.not_true, Bool.false_eq_true, if_false]
  by_cases hw : packet.isWrite = true
  · simp only [hw, if_true]
    split
    · rfl
    · cases addToWriteQueue p s packet pkt prio _ <;> rfl
  · rw [Bool.not_eq_true] at hw
    rw [hw, Bool.or_false] at hkind
    simp only [hw, hkind, Bool.false_eq_true, if_false, assertThat_true, ok_bind]
    split
    · rfl
    · cases addToReadQueue p s packet pkt prio _ <;> rfl

theorem admissible_of_ok {res : MemCtrl × Bool} (h : recvTimingReq p s packet pkt prio = .ok res) :
    Admissible p packet prio := by
  obtain ⟨_, h1, h⟩ := bind_eq_ok.1 h
  obtain ⟨_, h2, h⟩ := bind_eq_ok.1 h
  obtain ⟨_, h3, h⟩ := bind_eq_ok.1 h
  obtain ⟨_, h4, h⟩ := bind_eq_ok.1 h
  rw [panicIf_eq_ok] at h1 h2 h3
  rw [assertThat_eq_ok, decide_eq_true_eq] at h4
  refine ⟨h1, by simpa only [Bool.not_eq_eq_eq_not, Bool.not_false] using h2, by simpa using h3, h4, ?_⟩
  split at h
  · obtain ⟨_, h5, -⟩ := bind_eq_ok.1 h
    exact size_ne_zero.1 (assertThat_eq_ok.1 h5)
  · obtain ⟨_, -, h⟩ := bind_eq_ok.1 h
    obtain ⟨_, h5, -⟩ := bind_eq_ok.1 h
    exact size_ne_zero.1 (assertThat_eq_ok.1 h5)

theorem length_pieces (base : Addr) (size : BitVec 32) : ∀ (n : Nat) (addr : Addr), (pieces p base size n addr).length = n
  | 0, _ => rfl
  | n + 1, addr => by rw [pieces, length_cons, length_pieces base size n]

theorem pktCount_pos (hf : Fits p packet.addr packet.size) (hpos : 0 < packet.size) :
    0 < (pktCount p packet.addr (BitVec.ofNat 32 packet.size)).toNat := by
  rw [toNat_pktCount p hf]
  exact Nat.div_pos (by omega) (bytes_pos p)

/-- The controller after a read of which the pieces `u` were queued and `n` found. -/
def queueReads (s : MemCtrl) (pkt prio count : Nat) (u : List Piece) (n : Nat) : MemCtrl :=
  { s with
    readQueue := s.readQueue.modify prio (· ++ entries s pkt count u)
    totalReadQueueSize := s.totalReadQueueSize + u.length
    helpers := fun h => if 1 < count ∧ h = s.nextHelper then some { burstCount := count, burstsServiced := n } else
      s.helpers h
    nextHelper := if 1 < count then s.nextHelper + 1 else s.nextHelper }

/-- **What `addToReadQueue` does**: it answers a read whose pieces are all found, and queues what is not found. -/
theorem addToReadQueue_eq {n : BitVec 32} {f : List Piece} (hw : WritesOk p s) (hread : packet.isWrite = false)
    (hf : Fits p packet.addr packet.size) (hpos : 0 < packet.size)
    (hn : pktCount p packet.addr (BitVec.ofNat 32 packet.size) = n) (hun : unfound p s (splitPacket p packet) = u)
    (hfo : found p s (splitPacket p packet) = f) (hroom : readQueueFull p s n.toNat = false) :
    addToReadQueue p s packet pkt prio n = .ok (if u = [] then (accessAndRespond s pkt, true) else
      (queueReads s pkt prio n.toNat u f.length, false)) := by
  have hcount := pktCount_pos hf hpos
  have hlen : f.length + u.length = n.toNat := by
    rw [← hfo, ← hun, length_found_add_unfound, splitPacket, split, length_pieces, hn]
  have hsum := hw.sum_found (sound_of_mem_split p hf hpos)
  rw [readQueueFull, decide_eq_false_iff_not] at hroom
  have hsplit : splitPacket p packet = pieces p packet.addr (BitVec.ofNat 32 packet.size) n.toNat packet.addr := by
    rw [splitPacket, split, hn]
  have hloop : readPieces p pkt prio n.toNat (splitPacket p packet) { ctrl := s } =
      .ok (loopAt s pkt prio n.toNat u f.length) := by
    rw [← loopAt_nil s pkt prio n.toNat, readPieces_loopAt, hun, List.nil_append, Nat.zero_add, ← hfo]
    · exact congrArg (fun k => Except.ok (loopAt s pkt prio n.toNat u k)) hsum
    · rw [hsplit, length_pieces, List.length_nil]
      omega
  have hne : (n != 0) = true := by
    rw [bne_iff_ne]
    rintro rfl
    rw [hn] at hcount
    exact absurd hcount (by decide)
  simp only [addToReadQueue, ← hsplit, hread, hne, Bool.not_false, assertThat_true, ok_bind, hloop]
  by_cases hu : u = []
  · rw [hu, List.length_nil, Nat.add_zero] at hlen
    have hmod : s.readQueue.modify prio (fun v => v) = s.readQueue := List.modify_id _ _
    simp [hu, loopAt, hlen, entries, hmod, accessAndRespond]
  · have hupos := List.length_pos_of_ne_nil hu
    have hlt : f.length ≠ n.toNat := by omega
    by_cases hc : 1 < n.toNat
    · simp only [loopAt, helperFor, hu, hc, hlt, if_true, if_false, queueReads, Run.pure_eq_ok, ne_eq, not_false_eq_true,
        true_and, and_self]
      congr 3
      funext h
      by_cases hh : h = s.nextHelper <;> simp [hh]
    · simp [loopAt, helperFor, hu, hc, hlt, queueReads]

theorem any_pkt_eq (hfresh : ∀ m ∈ q, m.pkt ≠ pkt) : q.any (·.pkt == pkt) = false := by
  simpa using hfresh

/-- **An answer given at once**: a packet that leaves nothing waiting. -/
theorem Inv.answer (h : Inv p r) {s : MemCtrl} (hs : OnlyWrites r.ctrl s) (hw : WritesOk p s)
    (hwc : s.totalWriteQueueSize ≤ p.writeBufferSize) (hf : Fits p packet.addr packet.size) (hpos : 0 < packet.size)
    {new : List (Nat × Piece)} (hnew : new.Perm (readPiecesOf p r.accepted.length [packet])) : Inv p { r with
      ctrl := accessAndRespond s r.accepted.length
      accepted := r.accepted ++ [packet]
      found := r.found ++ new } := by
  have hq : waiting (accessAndRespond s r.accepted.length) = waiting r.ctrl := by
    rw [hs]
    rfl
  have hrespond : (accessAndRespond s r.accepted.length).responses = r.ctrl.responses ++ [r.accepted.length] := by
    rw [hs]
    rfl
  refine ⟨?_, ?_, ?_, hw.perm hw.width (.refl _) rfl rfl, hwc, ?_, ?_, ?_, ?_, ?_⟩
  · rw [hs]
    exact h.width
  · rw [hs]
    exact h.total
  · rw [hs]
    exact h.capacity
  · intro m hm
    exact h.inBurst m (hq ▸ hm)
  · dsimp only
    rw [hq, hs]
    exact h.helpers
  · intro i
    dsimp only
    rw [hq, hrespond, count_append, List.count_singleton, h.accept]
    simp only [beq_iff_eq]
    omega
  · dsimp only
    rw [hq, readPiecesOf_append, Nat.zero_add, append_assoc, append_assoc]
    have hl := h.ledger
    rw [append_assoc] at hl
    refine ((List.perm_append_comm.append_left r.found).trans ?_)
    rw [← append_assoc]
    exact hl.append hnew
  · exact h.sized_append hf hpos

theorem Inv.queue (h : Inv p r) (hprio : prio < p.numPriorities) (hf : Fits p packet.addr packet.size)
    (hpos : 0 < packet.size) (hread : packet.isWrite = false)
    (hroom : readQueueFull p r.ctrl (pktCount p packet.addr (BitVec.ofNat 32 packet.size)).toNat = false)
    (hu : unfound p r.ctrl (splitPacket p packet) ≠ []) : Inv p { r with
      ctrl := queueReads r.ctrl r.accepted.length prio (pktCount p packet.addr (BitVec.ofNat 32 packet.size)).toNat
        (unfound p r.ctrl (splitPacket p packet)) (MemCtrl.found p r.ctrl (splitPacket p packet)).length
      accepted := r.accepted ++ [packet]
      found := r.found ++ (MemCtrl.found p r.ctrl (splitPacket p packet)).map (r.accepted.length, ·) } := by
  have hlen : (MemCtrl.found p r.ctrl (splitPacket p packet)).length + (unfound p r.ctrl (splitPacket p packet)).length =
      (pktCount p packet.addr (BitVec.ofNat 32 packet.size)).toNat := by
    rw [length_found_add_unfound, splitPacket, split, length_pieces]
  have hsplit : (MemCtrl.found p r.ctrl (splitPacket p packet) ++ unfound p r.ctrl (splitPacket p packet)).Perm
      (splitPacket p packet) := by
    refine List.perm_append_comm.trans ?_
    exact List.filter_append_perm (fun pc => foundInWrQ p r.ctrl pc == 0) _
  have hsub : ∀ pc ∈ unfound p r.ctrl (splitPacket p packet), pc.size ≤ p.burstSize := by
    intro pc hpc
    have hs := (sound_of_mem_split p hf hpos pc (List.mem_filter.1 hpc).1).1
    rw [InBurst] at hs
    rw [BitVec.le_def]
    exact Nat.le_trans (Nat.le_add_left _ _) hs
  generalize unfound p r.ctrl (splitPacket p packet) = u at *
  generalize MemCtrl.found p r.ctrl (splitPacket p packet) = f at *
  generalize (pktCount p packet.addr (BitVec.ofNat 32 packet.size)).toNat = count at *
  rw [readQueueFull, decide_eq_false_iff_not] at hroom
  have hperm := flatten_modify_append (entries r.ctrl r.accepted.length count u) (q := r.ctrl.readQueue) (i := prio)
    (by rw [h.width]; exact hprio)
  have hq : (waiting (queueReads r.ctrl r.accepted.length prio count u f.length)).Perm
      (entries r.ctrl r.accepted.length count u ++ waiting r.ctrl) := by
    rw [waiting, waiting, ← append_assoc]
    exact hperm.append_right _
  have hlenE : (entries r.ctrl r.accepted.length count u).length = u.length := List.length_map _
  have hfresh : ∀ m ∈ waiting r.ctrl, m.pkt ≠ r.accepted.length := fun m hm => Nat.ne_of_lt (h.fresh hm)
  refine ⟨?_, ?_, ?_, h.writes.perm h.writes.width (.refl _) rfl rfl, h.writeCapacity, ?_, ?_, ?_, ?_, ?_⟩
  · change (r.ctrl.readQueue.modify prio _).length = _
    rw [List.length_modify, h.width]
  · change r.ctrl.totalReadQueueSize + u.length = (r.ctrl.readQueue.modify prio _).flatten.length
    rw [hperm.length_eq, length_append, hlenE, h.total, Nat.add_comm]
  · change r.ctrl.totalReadQueueSize + u.length + r.ctrl.respQueue.length ≤ _
    omega
  · intro m hm
    rcases mem_append.1 (hq.mem_iff.1 hm) with hm | hm
    · obtain ⟨pc, hpc, rfl⟩ := mem_map.1 hm
      exact hsub pc hpc
    · exact h.inBurst m hm
  · exact (h.helpers.arrive hfresh hlen hu).perm hq.symm
  · intro i
    dsimp only
    rw [hq.any_eq, List.any_append, h.accept]
    change r.ctrl.responses.count i + _ = _
    by_cases hi : r.accepted.length = i
    · subst hi
      have hany : (entries r.ctrl r.accepted.length count u).any (·.pkt == r.accepted.length) = true := by
        obtain ⟨pc, hpc⟩ := List.exists_mem_of_ne_nil u hu
        exact any_eq_true.2 ⟨_, mem_map.2 ⟨pc, hpc, rfl⟩, by simp⟩
      rw [hany, any_pkt_eq hfresh, if_pos rfl]
      rfl
    · have hany : (entries r.ctrl r.accepted.length count u).any (·.pkt == i) = false := by
        refine any_pkt_eq fun m hm => ?_
        obtain ⟨pc, -, rfl⟩ := mem_map.1 hm
        exact hi
      rw [hany, Bool.false_or, if_neg hi, Nat.add_zero]
  · dsimp only
    rw [readPiecesOf_append, Nat.zero_add, readPiecesOf, hread, readPiecesOf, List.append_nil]
    simp only [Bool.false_eq_true, if_false]
    have htag : (entries r.ctrl r.accepted.length count u).map MemPacket.tag = u.map (r.accepted.length, ·) := by
      rw [entries, List.map_map]
      rfl
    have hq' := hq.map MemPacket.tag
    rw [map_append, htag] at hq'
    -- the new pieces, found and not, move to the end
    calc r.found ++ f.map (r.accepted.length, ·) ++ r.completed ++
          (waiting (queueReads r.ctrl r.accepted.length prio count u f.length)).map MemPacket.tag
        |>.Perm (r.found ++ f.map (r.accepted.length, ·) ++ r.completed ++
          (u.map (r.accepted.length, ·) ++ (waiting r.ctrl).map MemPacket.tag)) := hq'.append_left _
      _ |>.Perm ((r.found ++ r.completed ++ (waiting r.ctrl).map MemPacket.tag) ++
          (f.map (r.accepted.length, ·) ++ u.map (r.accepted.length, ·))) := by
        rw [List.perm_iff_count]
        intro a
        simp only [count_append]
        omega
      _ |>.Perm (readPiecesOf p 0 r.accepted ++ (splitPacket p packet).map (r.accepted.length, ·)) := by
        rw [← map_append]
        exact h.ledger.append (hsplit.map _)
  · exact h.sized_append hf hpos

theorem unfound_eq_nil {pcs : List Piece} (h : unfound p s pcs = []) : found p s pcs = pcs := by
  refine List.filter_eq_self.2 fun pc hpc => ?_
  simpa using List.filter_eq_nil_iff.1 h pc hpc

theorem OnlyWrites.refl (s : MemCtrl) : OnlyWrites s s := rfl

/-! ## The steps -/

section Steps

variable {r : History}

theorem Inv.recvTimingReq (h : Inv p r) (ha : Admissible p packet prio) (hf : Fits p packet.addr packet.size) :
    ∃ res, MemCtrl.recvTimingReq p r.ctrl packet r.accepted.length prio = .ok res ∧ Inv p (r.received p packet res) := by
  rw [recvTimingReq_eq ha]
  dsimp only
  generalize hn : pktCount p packet.addr (BitVec.ofNat 32 packet.size) = n
  have hsplit : (splitPacket p packet).length = n.toNat := by rw [splitPacket, split, hn, length_pieces]
  by_cases hw : packet.isWrite = true
  · rw [if_pos hw]
    by_cases hfull : writeQueueFull p r.ctrl n.toNat = true
    · rw [if_pos hfull]
      refine ⟨_, rfl, ?_⟩
      exact h.keep h.width (.refl _) h.total (h.writes.perm h.writes.width (.refl _) rfl rfl) h.writeCapacity rfl rfl rfl
    · rw [if_neg hfull]
      rw [writeQueueFull, decide_eq_true_eq, Nat.not_lt] at hfull
      obtain ⟨s', hs', hok, hsame, hle⟩ := h.writes.writePieces r.accepted.length ha.prioOk
        (sound_of_mem_split p hf ha.nonempty) (by change _ + (splitPacket p packet).length ≤ _; omega)
      have hadd : addToWriteQueue p r.ctrl packet r.accepted.length prio n = .ok (accessAndRespond s' r.accepted.length) := by
        rw [split, hn] at hs'
        simp only [addToWriteQueue, hw, assertThat_true, ok_bind, hs', Run.pure_eq_ok]
      rw [hadd]
      refine ⟨_, rfl, ?_⟩
      simp only [History.received, if_true, hw]
      refine h.answer hsame hok ?_ hf ha.nonempty ?_
      · change _ ≤ _ + (splitPacket p packet).length at hle
        omega
      · simp [readPiecesOf, hw]
  · rw [if_neg hw]
    rw [Bool.not_eq_true] at hw
    by_cases hfull : readQueueFull p r.ctrl n.toNat = true
    · rw [if_pos hfull]
      refine ⟨_, rfl, ?_⟩
      exact h.keep h.width (.refl _) h.total (h.writes.perm h.writes.width (.refl _) rfl rfl) h.writeCapacity rfl rfl rfl
    · rw [if_neg hfull]
      rw [Bool.not_eq_true] at hfull
      rw [addToReadQueue_eq h.writes hw hf ha.nonempty hn rfl rfl hfull]
      by_cases hu : unfound p r.ctrl (splitPacket p packet) = []
      · rw [if_pos hu]
        refine ⟨_, rfl, ?_⟩
        simp only [History.received, if_true, hw, Bool.false_eq_true, if_false]
        refine h.answer (.refl _) h.writes h.writeCapacity hf ha.nonempty ?_
        simp [readPiecesOf, hw, unfound_eq_nil hu]
      · rw [if_neg hu]
        refine ⟨_, rfl, ?_⟩
        subst hn
        simp only [History.received, if_true, hw, Bool.false_eq_true, if_false]
        exact h.queue ha.prioOk hf ha.nonempty hw hfull hu

theorem Inv.issueRead (h : Inv p r) (prio i : Nat) :
    ∃ s, MemCtrl.issueRead p r.ctrl prio i = .ok s ∧ Inv p { r with ctrl := s } := by
  rw [MemCtrl.issueRead]
  cases hm : r.ctrl.readQueue[prio]?.bind (·[i]?) with
  | none => exact ⟨r.ctrl, rfl, h⟩
  | some m =>
    have hperm := flatten_modify_eraseIdx hm
    have hmem : m ∈ waiting r.ctrl := List.mem_append_left _ (hperm.mem_iff.2 mem_cons_self)
    simp only [h.inBurst m hmem, decide_true, assertThat_true, ok_bind]
    have hlen := hperm.length_eq
    rw [length_cons, ← h.total] at hlen
    refine ⟨_, rfl, h.keep ?_ ?_ ?_ (h.writes.perm h.writes.width (.refl _) rfl rfl) h.writeCapacity rfl rfl rfl⟩
    · simp only [retryWrite, List.length_modify, h.width]
    · -- the entry moves from the read queue to the end of the response queue
      simp only [waiting, retryWrite]
      rw [List.perm_iff_count]
      intro a
      have ha := hperm.count_eq a
      simp only [count_append, List.count_cons, List.count_nil] at ha ⊢
      omega
    · simp only [retryWrite]
      omega

theorem Inv.issueWrite (h : Inv p r) (prio i : Nat) {s : MemCtrl} (hs : MemCtrl.issueWrite p r.ctrl prio i = .ok s) :
    Inv p { r with ctrl := s } := by
  obtain ⟨hok, hle, hmem, retry, heq⟩ := h.writes.indexed.issueWrite hs
  have hok := hok.ok fun w hw => h.writes.sound w (hmem w hw)
  rw [heq] at hok hle ⊢
  exact h.keep h.width (.refl _) h.total hok (Nat.le_trans hle h.writeCapacity) rfl rfl rfl

theorem Inv.escalate (h : Inv p r) {reads writes : List (List MemPacket)} (hr : Rearranges p r.ctrl reads writes) :
    Inv p { r with ctrl := { r.ctrl with readQueue := reads, writeQueue := writes } } := by
  obtain ⟨h1, h2, h3, h4⟩ := hr
  refine h.keep h1 (h3.append_right _) ?_ (h.writes.perm h2 h4 rfl rfl) h.writeCapacity rfl rfl rfl
  rw [h3.length_eq]
  exact h.total

variable {m : MemPacket} {queue : List MemPacket}

theorem Inv.complete (h : Inv p r) (hq : r.ctrl.respQueue = m :: queue) {s : MemCtrl} (hs : s = { r.ctrl with
    respQueue := queue, retryRdReq := false, helpers := s.helpers, responses := s.responses })
    (hh : HelpersOk s.helpers s.nextHelper (r.ctrl.readQueue.flatten ++ queue)) (ha : s.responses = r.ctrl.responses
    ++ [m.pkt] ∧ (∀ m' ∈ r.ctrl.readQueue.flatten ++ queue, m'.pkt ≠ m.pkt) ∨ s.responses = r.ctrl.responses ∧ ∃ m' ∈
    r.ctrl.readQueue.flatten ++ queue, m'.pkt = m.pkt) :
    Inv p { r with ctrl := s, completed := r.completed ++ [m.tag] } := by
  have hwait : waiting s = r.ctrl.readQueue.flatten ++ queue := by rw [hs]; rfl
  have hold : (waiting r.ctrl).Perm (m :: waiting s) := by
    rw [hwait, waiting, hq]
    exact List.perm_middle
  refine ⟨?_, ?_, ?_, ?_, ?_, ?_, ?_, ?_, ?_, h.sized⟩
  · rw [hs]
    exact h.width
  · rw [hs]
    exact h.total
  · have hcap := h.capacity
    rw [hq, length_cons] at hcap
    rw [hs]
    dsimp only
    omega
  · exact h.writes.perm (by rw [hs]; exact h.writes.width) (by rw [hs]) (by rw [hs]) (by rw [hs])
  · rw [hs]
    exact h.writeCapacity
  · exact fun m' hm' => h.inBurst m' (hold.mem_iff.2 (mem_cons_of_mem _ hm'))
  · dsimp only
    rw [hwait]
    exact hh
  · intro i
    have hi := h.answered i
    rw [hold.any_eq, List.any_cons, hwait] at hi
    dsimp only
    rw [hwait, ← hi]
    rcases ha with ⟨hresp, hnone⟩ | ⟨hresp, m', hm', hpkt⟩
    · rw [hresp, count_append, List.count_singleton]
      by_cases he : m.pkt = i
      · subst he
        rw [any_pkt_eq hnone]
        simp
      · rw [beq_eq_false_iff_ne.2 he, Bool.false_or]
        rfl
    · rw [hresp]
      by_cases he : m.pkt = i
      · have hany : (r.ctrl.readQueue.flatten ++ queue).any (·.pkt == i) = true :=
          any_eq_true.2 ⟨m', hm', by simp [hpkt, he]⟩
        rw [hany, Bool.or_true]
      · rw [beq_eq_false_iff_ne.2 he, Bool.false_or]
  · refine List.Perm.trans ?_ h.ledger
    have htag := hold.map MemPacket.tag
    rw [List.perm_iff_count] at htag ⊢
    intro a
    have := htag a
    simp only [List.map_cons, count_append, List.count_cons, List.count_nil] at this ⊢
    omega

/-- **Completion**: the response event finds a piece with a live helper, or none to look for. -/
theorem Inv.processRespondEvent (h : Inv p r) (hq : r.ctrl.respQueue = m :: queue) :
    ∃ s, MemCtrl.processRespondEvent r.ctrl = .ok s ∧
      Inv p { r with ctrl := s, completed := r.completed ++ [m.tag] } := by
  have hhelp : HelpersOk r.ctrl.helpers r.ctrl.nextHelper (m :: (r.ctrl.readQueue.flatten ++ queue)) := by
    refine h.helpers.perm ?_
    rw [waiting, hq]
    exact List.perm_middle
  rw [MemCtrl.processRespondEvent, hq]
  cases hm : m.burstHelper with
  | none =>
    obtain ⟨hh, hnone⟩ := hhelp.complete_alone hm
    simp only [hm]
    exact ⟨_, rfl, h.complete hq rfl hh (.inl ⟨rfl, hnone⟩)⟩
  | some x =>
    obtain ⟨b, hb, hlast, hmore⟩ := hhelp.complete_shared hm
    simp only [hm, hb]
    by_cases he : b.burstsServiced + 1 = b.burstCount
    · obtain ⟨hh, hnone⟩ := hlast he
      rw [if_pos he]
      refine ⟨_, rfl, h.complete hq rfl ?_ (.inl ⟨rfl, hnone⟩)⟩
      have hfree : ∀ (f : Nat → Option BurstHelper) (c : Option BurstHelper),
          (fun y => if y = x then none else if y = x then c else f y) = fun y => if y = x then none else f y := by
        intro f c
        funext y
        by_cases hy : y = x <;> simp [hy]
      simp only [freeHelper, accessAndRespond, hfree]
      exact hh
    · obtain ⟨hh, hsome⟩ := hmore he
      rw [if_neg he]
      exact ⟨_, rfl, h.complete hq rfl hh (.inr ⟨rfl, hsome⟩)⟩

theorem Inv.exec (h : Inv p r) {e : Event} (hf : e.Fits p) {r' : History} (he : MemCtrl.exec p r e = .ok r') :
    Inv p r' := by
  cases e with
  | recvTimingReq packet prio =>
    obtain ⟨res, hres, he⟩ := bind_eq_ok.1 he
    cases he
    obtain ⟨res', hres', hinv⟩ := h.recvTimingReq (admissible_of_ok hres) hf
    rw [hres] at hres'
    cases hres'
    exact hinv
  | escalate reads writes =>
    rw [MemCtrl.exec] at he
    split at he
    · cases he
      exact h.escalate ‹_›
    · cases he
      exact h
  | issueRead prio i =>
    obtain ⟨s, hs, he⟩ := bind_eq_ok.1 he
    cases he
    obtain ⟨s', hs', hinv⟩ := h.issueRead prio i
    rw [hs] at hs'
    cases hs'
    exact hinv
  | issueWrite prio i =>
    obtain ⟨s, hs, he⟩ := bind_eq_ok.1 he
    cases he
    exact h.issueWrite prio i hs
  | processRespondEvent =>
    obtain ⟨s, hs, he⟩ := bind_eq_ok.1 he
    cases he
    cases hq : r.ctrl.respQueue with
    | nil =>
      rw [MemCtrl.processRespondEvent, hq] at hs
      cases hs
    | cons m queue =>
      obtain ⟨s', hs', hinv⟩ := h.processRespondEvent hq
      rw [hs] at hs'
      cases hs'
      exact hinv

end Steps

theorem Inv.execAll : ∀ {es : List Event} {r r' : History}, Inv p r → (∀ e ∈ es, e.Fits p) →
    MemCtrl.execAll p r es = .ok r' → Inv p r'
  | [], r, r', h, _, he => by
    cases he
    exact h
  | e :: es, r, r', h, hf, he => by
    obtain ⟨r₁, h₁, he⟩ := bind_eq_ok.1 he
    exact (h.exec (hf e mem_cons_self) h₁).execAll (fun e' he' => hf e' (mem_cons_of_mem _ he')) he

/-! ## The write queue in any run -/

def SameWrites (s s' : MemCtrl) : Prop :=
  s'.writeQueue = s.writeQueue ∧ s'.isInWriteQueue = s.isInWriteQueue ∧ s'.totalWriteQueueSize = s.totalWriteQueueSize

theorem SameWrites.trans {s s'' : MemCtrl} (h : SameWrites s s') (h' : SameWrites s' s'') : SameWrites s s'' :=
  ⟨h'.1.trans h.1, h'.2.1.trans h.2.1, h'.2.2.trans h.2.2⟩

theorem sameWrites_allocate (l : ReadLoop) (count : Nat) : SameWrites l.ctrl (l.allocate count).ctrl := by
  rw [ReadLoop.allocate]
  split <;> exact ⟨rfl, rfl, rfl⟩

theorem sameWrites_readPiece {pkt prio count : Nat} {l l' : ReadLoop} (h : readPiece p pkt prio count l pc = .ok l') :
    SameWrites l.ctrl l'.ctrl := by
  rw [readPiece] at h
  dsimp only at h
  split at h
  · cases h
    exact ⟨rfl, rfl, rfl⟩
  · obtain ⟨-, -, h⟩ := bind_eq_ok.1 h
    cases h
    exact sameWrites_allocate l count

theorem sameWrites_readPieces {pkt prio count : Nat} : ∀ {pcs : List Piece} {l l' : ReadLoop},
    readPieces p pkt prio count pcs l = .ok l' → SameWrites l.ctrl l'.ctrl
  | [], l, l', h => by
    cases h
    exact ⟨rfl, rfl, rfl⟩
  | pc :: pcs, l, l', h => by
    obtain ⟨l₁, h₁, h⟩ := bind_eq_ok.1 h
    exact (sameWrites_readPiece h₁).trans (sameWrites_readPieces h)

theorem sameWrites_addToReadQueue {s : MemCtrl} {packet : Packet} {pkt prio : Nat} {count : BitVec 32}
    {res : MemCtrl × Bool} (h : addToReadQueue p s packet pkt prio count = .ok res) : SameWrites s res.1 := by
  obtain ⟨-, -, h⟩ := bind_eq_ok.1 h
  obtain ⟨-, -, h⟩ := bind_eq_ok.1 h
  obtain ⟨l, hl, h⟩ := bind_eq_ok.1 h
  have hsame := sameWrites_readPieces hl
  split at h
  · cases h
    exact hsame
  · split at h <;>
    · cases h
      exact hsame

theorem sameWrites_processRespondEvent {s : MemCtrl} (h : processRespondEvent s = .ok s') : SameWrites s s' := by
  rw [processRespondEvent] at h
  split at h
  · cases h
  · split at h
    · cases h
      exact ⟨rfl, rfl, rfl⟩
    · dsimp only at h
      split at h
      · cases h
      · split at h <;>
        · cases h
          exact ⟨rfl, rfl, rfl⟩

/-- The write queue is indexed, and within its capacity. -/
def WritesBounded (p : Params) (s : MemCtrl) : Prop := WritesIndexed p s ∧ s.totalWriteQueueSize ≤ p.writeBufferSize

theorem WritesBounded.same {s : MemCtrl} (h : WritesBounded p s) (hs : SameWrites s s') : WritesBounded p s' := by
  obtain ⟨hq, hb, ht⟩ := hs
  exact ⟨h.1.perm (by rw [hq, h.1.width]) (by rw [hq]) ht hb, by rw [ht]; exact h.2⟩

/-- **A write with room for its pieces is taken**, whatever its size and alignment. -/
theorem WritesBounded.addToWriteQueue {s : MemCtrl} (h : WritesBounded p s) {packet : Packet} (hw : packet.isWrite = true)
    (pkt : Nat) {prio : Nat} (hprio : prio < p.numPriorities) {count : BitVec 32}
    (hroom : writeQueueFull p s count.toNat = false) :
    ∃ s', MemCtrl.addToWriteQueue p s packet pkt prio count = .ok s' ∧ WritesBounded p s' := by
  rw [writeQueueFull, decide_eq_false_iff_not, Nat.not_lt,
    ← length_pieces (p := p) packet.addr (BitVec.ofNat 32 packet.size) count.toNat packet.addr] at hroom
  obtain ⟨s', hs', hok, -, hle, -⟩ := h.1.writePieces pkt hprio hroom
  refine ⟨accessAndRespond s' pkt, ?_, WritesBounded.same ⟨hok, Nat.le_trans hle hroom⟩ ⟨rfl, rfl, rfl⟩⟩
  simp only [MemCtrl.addToWriteQueue, hw, assertThat_true, ok_bind, hs', Run.pure_eq_ok]

theorem WritesBounded.recvTimingReq {s : MemCtrl} (h : WritesBounded p s) {packet : Packet} {pkt prio : Nat}
    {res : MemCtrl × Bool} (hr : MemCtrl.recvTimingReq p s packet pkt prio = .ok res) : WritesBounded p res.1 := by
  have ha := admissible_of_ok hr
  rw [recvTimingReq_eq ha] at hr
  dsimp only at hr
  split at hr
  · rename_i hw
    split at hr
    · cases hr
      exact h.same ⟨rfl, rfl, rfl⟩
    · rename_i hroom
      obtain ⟨s', hs', hok⟩ := h.addToWriteQueue hw pkt ha.prioOk (Bool.not_eq_true _ ▸ hroom)
      rw [hs'] at hr
      cases hr
      exact hok
  · split at hr
    · cases hr
      exact h.same ⟨rfl, rfl, rfl⟩
    · obtain ⟨res', hres, rfl⟩ := Run.map_eq_ok.1 hr
      have hsame := sameWrites_addToReadQueue hres
      exact h.same hsame

theorem WritesBounded.exec {r r' : History} (h : WritesBounded p r.ctrl) {e : Event} (he : MemCtrl.exec p r e = .ok r') :
    WritesBounded p r'.ctrl := by
  cases e with
  | recvTimingReq packet prio =>
    obtain ⟨res, hres, he⟩ := bind_eq_ok.1 he
    cases he
    have := h.recvTimingReq hres
    rw [History.received]
    split <;> exact this
  | escalate reads writes =>
    rw [MemCtrl.exec] at he
    split at he
    · rename_i hr
      cases he
      exact ⟨h.1.perm hr.2.1 hr.2.2.2 rfl rfl, h.2⟩
    · cases he
      exact h
  | issueRead prio i =>
    obtain ⟨s, hs, he⟩ := bind_eq_ok.1 he
    cases he
    rw [MemCtrl.issueRead] at hs
    split at hs
    · cases hs
      exact h
    · obtain ⟨-, -, hs⟩ := bind_eq_ok.1 hs
      cases hs
      exact h.same ⟨rfl, rfl, rfl⟩
  | issueWrite prio i =>
    obtain ⟨s, hs, he⟩ := bind_eq_ok.1 he
    cases he
    obtain ⟨hok, hle, -⟩ := h.1.issueWrite hs
    exact ⟨hok, Nat.le_trans hle h.2⟩
  | processRespondEvent =>
    obtain ⟨s, hs, he⟩ := bind_eq_ok.1 he
    cases he
    exact h.same (sameWrites_processRespondEvent hs)

theorem WritesBounded.execAll : ∀ {es : List Event} {r r' : History}, WritesBounded p r.ctrl →
    MemCtrl.execAll p r es = .ok r' → WritesBounded p r'.ctrl
  | [], r, r', h, he => by
    cases he
    exact h
  | e :: es, r, r', h, he => by
    obtain ⟨r₁, h₁, he⟩ := bind_eq_ok.1 he
    exact (h.exec h₁).execAll he

/-- **The write queue's index is exact** after every run, with writes of any size and alignment: the set has the bursts of
the queued writes, each once; the total is their number, within the buffer; and the next write that is accepted goes in
with no assertion failing. -/
theorem write_index_exact {events : List Event} {r : History} (hrun : execAll p { ctrl := create p } events = .ok r) :
    (∀ a, a ∈ r.ctrl.isInWriteQueue ↔ ∃ w ∈ r.ctrl.writeQueue.flatten, burstAlign p w.addr = a) ∧
    (r.ctrl.writeQueue.flatten.map fun w => burstAlign p w.addr).Nodup ∧
    r.ctrl.totalWriteQueueSize = r.ctrl.writeQueue.flatten.length ∧
    r.ctrl.totalWriteQueueSize ≤ p.writeBufferSize ∧
    ∀ packet pkt prio, packet.isWrite = true → prio < p.numPriorities →
      let count := pktCount p packet.addr (BitVec.ofNat 32 packet.size)
      writeQueueFull p r.ctrl count.toNat = false → ∃ s, addToWriteQueue p r.ctrl packet pkt prio count = .ok s := by
  have hstart : WritesBounded p (create p) := ⟨inv_create.writes.indexed, Nat.zero_le _⟩
  have h := hstart.execAll hrun
  refine ⟨fun a => ?_, h.1.single, h.1.total, h.2, fun packet pkt prio hw hprio hroom => ?_⟩
  · rw [h.1.bursts, List.mem_toFinset, mem_map]
  · obtain ⟨s, hs, -⟩ := h.addToWriteQueue hw pkt hprio hroom
    exact ⟨s, hs⟩

def piecesOf (log : List (Nat × Piece)) (i : Nat) : List Piece := (log.filter (·.1 == i)).map (·.2)

theorem piecesOf_readPiecesOf_lt : ∀ {l : List Packet} {k i : Nat}, i < k → piecesOf (readPiecesOf p k l) i = []
  | [], _, _, _ => rfl
  | packet :: l, k, i, h => by
    have ih := piecesOf_readPiecesOf_lt (l := l) (k := k + 1) (i := i) (by omega)
    rw [readPiecesOf, piecesOf, List.filter_append, map_append]
    rw [piecesOf] at ih
    rw [ih, List.append_nil]
    by_cases hw : packet.isWrite = true
    · simp [hw]
    · have hki : k ≠ i := by omega
      simp [hw, List.filter_map, Function.comp_def, hki]

theorem piecesOf_readPiecesOf : ∀ {l : List Packet} {k i : Nat}, l[i]? = some packet → packet.isWrite = false →
    piecesOf (readPiecesOf p k l) (k + i) = splitPacket p packet
  | [], _, _, h, _ => by simp at h
  | first :: l, k, 0, h, hw => by
    rw [List.getElem?_cons_zero, Option.some.injEq] at h
    subst h
    have ih := piecesOf_readPiecesOf_lt (p := p) (l := l) (k := k + 1) (i := k) (by omega)
    rw [piecesOf] at ih
    rw [readPiecesOf, piecesOf, List.filter_append, map_append, Nat.add_zero, ih]
    simp [hw, List.filter_map, Function.comp_def]
  | first :: l, k, i + 1, h, hw => by
    rw [List.getElem?_cons_succ] at h
    have ih := piecesOf_readPiecesOf (k := k + 1) h hw
    rw [piecesOf, show k + 1 + i = k + (i + 1) by omega] at ih
    rw [readPiecesOf, piecesOf, List.filter_append, map_append, ih]
    by_cases hf : first.isWrite = true
    · simp [hf]
    · simp [hf, List.filter_map, Function.comp_def]

theorem piecesOf_append (l l' : List (Nat × Piece)) (i : Nat) : piecesOf (l ++ l') i = piecesOf l i ++ piecesOf l' i := by
  rw [piecesOf, List.filter_append, map_append]
  rfl

/-- **Every accepted read is answered once.**  In a run whose packets the controller can split, a read's pieces tile it,
each inside one burst, and each was found in the write queue, completed, or waits; it is answered exactly once, and only
when none waits.  A burst helper is live exactly while a piece that points to it waits, so it is deleted once and not read
after.  The next admissible packet is taken or refused with no assertion failing, and the next response event, with a
piece to complete, returns. -/
theorem reads_answered_once {events : List Event} {r : History} (hrun : execAll p { ctrl := create p } events = .ok r)
    (hfits : ∀ e ∈ events, e.Fits p) :
    (∀ i packet, r.accepted[i]? = some packet → packet.isWrite = false →
      Tiles packet.addr.toNat (packet.addr.toNat + packet.size) (splitPacket p packet) ∧
      (∀ pc ∈ splitPacket p packet, InBurst p pc) ∧
      (piecesOf r.found i ++ piecesOf r.completed i ++ piecesOf ((waiting r.ctrl).map MemPacket.tag) i).Perm
        (splitPacket p packet) ∧
      r.ctrl.responses.count i = if ∃ m ∈ waiting r.ctrl, m.pkt = i then 0 else 1) ∧
    (∀ h, (∃ b, r.ctrl.helpers h = some b) ↔ ∃ m ∈ waiting r.ctrl, m.burstHelper = some h) ∧
    (∀ packet prio, Admissible p packet prio → Fits p packet.addr packet.size →
      ∃ res, recvTimingReq p r.ctrl packet r.accepted.length prio = .ok res) ∧
    (r.ctrl.respQueue ≠ [] → ∃ s, processRespondEvent r.ctrl = .ok s) := by
  have hinv := inv_create.execAll hfits hrun
  refine ⟨?_, ?_, ?_, ?_⟩
  · intro i packet hi hw
    obtain ⟨hf, hpos⟩ := hinv.sized packet (List.mem_of_getElem? hi)
    obtain ⟨htile, hin⟩ := split_tiles p hf hpos
    refine ⟨htile, hin, ?_, ?_⟩
    · have hl := hinv.ledger.filter (·.1 == i) |>.map (·.2)
      have hpieces := piecesOf_readPiecesOf (p := p) (k := 0) hi hw
      rw [Nat.zero_add] at hpieces
      rw [← piecesOf_append, ← piecesOf_append, ← hpieces]
      exact hl
    · have ha := hinv.answered i
      rw [if_pos (List.getElem?_eq_some_iff.1 hi).1] at ha
      by_cases hm : ∃ m ∈ waiting r.ctrl, m.pkt = i
      · have hany : (waiting r.ctrl).any (·.pkt == i) = true := by simpa using hm
        rw [hany, Bool.toNat_true] at ha
        rw [if_pos hm]
        omega
      · have hany : (waiting r.ctrl).any (·.pkt == i) = false := any_pkt_eq (by simpa using hm)
        rw [hany, Bool.toNat_false] at ha
        rw [if_neg hm]
        omega
  · intro h
    constructor
    · rintro ⟨b, hb⟩
      exact shares_pos.1 (hinv.helpers.live h b hb).2.2
    · rintro ⟨m, hm, hx⟩
      exact hinv.helpers.held m hm h hx
  · intro packet prio ha hf
    obtain ⟨res, hres, -⟩ := hinv.recvTimingReq ha hf
    exact ⟨res, hres⟩
  · intro hne
    obtain ⟨m, queue, hq⟩ := List.exists_cons_of_ne_nil hne
    obtain ⟨s, hs, -⟩ := hinv.processRespondEvent hq
    exact ⟨s, hs⟩

def sampleParams : Params :=
  { readBufferSize := 32, writeBufferSize := 64, range := { start := 0, end_ := BitVec.ofNat 64 (2 ^ 40) } }

def sampleWrite : Packet :=
  { cmd := .writeReq, req := { paddr := 64 }, addr := 64, size := 64, size_lt := Packet.lineSize_lt }

/-- Three bursts, the second of which `sampleWrite` covers. -/
def sampleRead : Packet := { cmd := .readReq, req := { paddr := 60 }, addr := 60, size := 72 }

def sampleRun : List Event :=
  [.recvTimingReq sampleWrite 0, .recvTimingReq sampleRead 0, .issueRead 0 1, .issueRead 0 0, .processRespondEvent,
    .processRespondEvent]

theorem reads_answered_once_sample : ∃ r, execAll sampleParams { ctrl := create sampleParams } sampleRun = .ok r ∧
    r.ctrl.responses = [0, 1] ∧ r.found = [(1, ⟨64, 64⟩)] ∧ r.completed = [(1, ⟨128, 4⟩), (1, ⟨60, 4⟩)] ∧
    r.ctrl.responses.count 1 = if ∃ m ∈ waiting r.ctrl, m.pkt = 1 then 0 else 1 := by
  have hfits : ∀ e ∈ sampleRun, e.Fits sampleParams := by
    intro e he
    simp only [sampleRun, mem_cons, List.not_mem_nil, or_false] at he
    rcases he with rfl | rfl | rfl | rfl | rfl | rfl
    · exact (by decide : Fits sampleParams sampleWrite.addr sampleWrite.size)
    · exact (by decide : Fits sampleParams sampleRead.addr sampleRead.size)
    all_goals trivial
  refine ⟨_, rfl, by decide, by decide, by decide, ?_⟩
  exact ((reads_answered_once (rfl : execAll sampleParams _ sampleRun = _) hfits).1 1 sampleRead rfl rfl).2.2.2

/-- A write of two bursts merges with `sampleWrite`, which is then issued. -/
def sampleWrites : List Event :=
  [.recvTimingReq sampleWrite 0, .recvTimingReq { sampleWrite with addr := 100 } 0, .issueWrite 0 0]

theorem write_index_sample : ∃ r, execAll sampleParams { ctrl := create sampleParams } sampleWrites = .ok r ∧
    r.ctrl.isInWriteQueue = {128} ∧ r.ctrl.totalWriteQueueSize = r.ctrl.writeQueue.flatten.length := by
  refine ⟨_, rfl, by decide, ?_⟩
  exact (write_index_exact (rfl : execAll sampleParams _ sampleWrites = _)).2.2.1

def hugeRead (addr : Addr) : Packet :=
  { cmd := .readReq, req := { paddr := addr }, addr, size := 2 ^ 32 - 1 }

/-- **The count of bursts wraps.**  A read of `2 ^ 32 - 1` bytes that starts at the last byte of a burst is taken as one
piece of one byte and answered after it; one that starts a burst fails the assertion that there is a piece. -/
theorem burst_count_wraps :
    (∃ r, execAll sampleParams { ctrl := create sampleParams }
        [.recvTimingReq (hugeRead 63) 0, .issueRead 0 0, .processRespondEvent] = .ok r ∧
      r.ctrl.responses = [0] ∧ splitPacket sampleParams (hugeRead 63) = [⟨63, 1⟩] ∧
      ¬ Tiles 63 (63 + (hugeRead 63).size) (splitPacket sampleParams (hugeRead 63))) ∧
    recvTimingReq sampleParams (create sampleParams) (hugeRead 0) 0 0 = .error .assertFailed := by
  have hsplit : splitPacket sampleParams (hugeRead 63) = [⟨63, 1⟩] := by decide
  refine ⟨⟨_, rfl, by decide, hsplit, ?_⟩, rfl⟩
  rw [hsplit]
  simp [Tiles, hugeRead]

end MemCtrl
end Gem5
