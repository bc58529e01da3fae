import Gem5Cxl.FaLru
/-!
# FaLruTracked — masks and boundaries of the FALRU cache

Position `p` of the LRU order is in the `i`-th tracked cache if it is below that cache's number of blocks.  `Tracked`
says that masks and boundaries record this; it survives a move to the front because every block in front of the moved
one goes down by one.
-/
namespace Gem5

namespace FaLru

/-! ## Masks -/

theorem bit_eq (i : Nat) : bit i = BitVec.twoPow 32 i := rfl

variable {i j T n b p q m : Nat} {l order : List Nat} {blks : List FalruBlk} {s : List FalruBlk × List (Option Nat)}
  {f : FaLru}

theorem bit_and_ne_zero (hi : i < 32) (x : BitVec 32) : bit i &&& x ≠ 0 ↔ x.getLsbD i = true := by
  rw [bit_eq, BitVec.and_comm, BitVec.and_twoPow]
  cases hx : x.getLsbD i with
  | false => simp
  | true =>
    simp only [if_true, iff_true]
    intro h
    have hbit : (BitVec.twoPow 32 i).getLsbD i = true := by simp [hi]
    rw [h] at hbit
    simp at hbit

theorem getLsbD_clear (i : Nat) (x : BitVec 32) (hj : j < 32) :
    (x &&& ~~~ bit i).getLsbD j = (x.getLsbD j && decide (j ≠ i)) := by
  rw [bit_eq, BitVec.getLsbD_and, BitVec.getLsbD_not, BitVec.getLsbD_twoPow]
  by_cases h : i = j
  · simp [h, hj]
  · simp [h, hj, Ne.symm h]

theorem getLsbD_allCaches (hj : j < 32) : (BitVec.ofNat 32 (2 ^ T - 1)).getLsbD j = decide (j < T) := by
  rw [BitVec.getLsbD_ofNat, Nat.testBit_two_pow_sub_one]
  simp [hj]

/-! ## A loop that keeps an invariant -/

theorem foldlM_range {σ : Type} {f : σ → Nat → Except Failure σ} {P : Nat → σ → Prop} {s : σ} (h0 : P 0 s)
    (hstep : ∀ i < n, ∀ s, P i s → ∃ s', f s i = .ok s' ∧ P (i + 1) s') :
    ∃ s', (List.range n).foldlM f s = .ok s' ∧ P n s' := by
  induction n with
  | zero => exact ⟨s, rfl, h0⟩
  | succ n ih =>
    obtain ⟨s₁, hs₁, hp₁⟩ := ih fun i hi => hstep i (Nat.lt_succ_of_lt hi)
    obtain ⟨s₂, hs₂, hp₂⟩ := hstep n (Nat.lt_succ_self n) s₁ hp₁
    refine ⟨s₂, ?_, hp₂⟩
    rw [List.range_succ, List.foldlM_append, hs₁, Run.ok_bind, List.foldlM_cons, hs₂, Run.ok_bind]
    rfl

/-! ## Masks and boundaries -/

/-- **Masks and boundaries record the positions**: with `m` blocks in the smallest of `T` tracked caches, the `i`-th has
    the first `m * 2 ^ i` blocks. -/
structure Tracked (m T : Nat) (blks : List FalruBlk) (order : List Nat) (boundaries : List (Option Nat)) : Prop where
  nodup : order.Nodup
  masks : ∀ p b, order[p]? = some b → ∃ x, blks[b]? = some x ∧
    ∀ i < 32, x.inCachesMask.getLsbD i = decide (i < T ∧ p < m * 2 ^ i)
  length : boundaries.length = T
  bounds : ∀ i < T, boundaries[i]? = some order[m * 2 ^ i - 1]?
  fits : ∀ i < T, m * 2 ^ i < order.length

def SameLine (x y : FalruBlk) : Prop := x.valid = y.valid ∧ x.tag = y.tag ∧ x.secure = y.secure

theorem idxOf_eq (hl : l.Nodup) (hp : l[p]? = some b) : l.idxOf b = p := by
  obtain ⟨hlt, rfl⟩ := List.getElem?_eq_some_iff.1 hp
  exact hl.idxOf_getElem p hlt

theorem prev_eq (hl : l.Nodup) (hp : l[p + 1]? = some b) : prev l b = l[p]? := by
  rw [prev, idxOf_eq hl hp]

/-- The state of the loop of `moveBlockToHead` before round `i`: for the caches already done, the blocks in front of the
    moved one, at `q`, count as one further down. -/
structure Moving (m T q : Nat) (b : Nat) (order : List Nat) (blks : List FalruBlk) (i : Nat)
    (s : List FalruBlk × List (Option Nat)) : Prop where
  masks : ∀ p c, order[p]? = some c → ∃ x y, s.1[c]? = some x ∧ blks[c]? = some y ∧ SameLine x y ∧
    ∀ j < 32, x.inCachesMask.getLsbD j = decide (j < T ∧ (if j < i ∧ p < q then p + 1 else p) < m * 2 ^ j)
  length : s.2.length = T
  bounds : ∀ j < T, s.2[j]? = some (if j < i then (b :: order.erase b)[m * 2 ^ j - 1]? else order[m * 2 ^ j - 1]?)

theorem moveFront_boundary (hn : order.Nodup) (hq : order[q]? = some b) (hn2 : 2 ≤ n) :
    (b :: order.erase b)[n - 1]? = if n - 2 < q then order[n - 2]? else order[n - 1]? := by
  obtain ⟨k, rfl⟩ : ∃ k, n = k + 2 := ⟨n - 2, by omega⟩
  exact LruStack.getElem?_moveFront hn hq k

theorem two_le_blocks (hm : 2 ≤ m) (i : Nat) : 2 ≤ m * 2 ^ i :=
  Nat.le_trans hm (Nat.le_mul_of_pos_right m (Nat.two_pow_pos i))

theorem SameLine.trans {x y z : FalruBlk} (hxy : SameLine x y) (hyz : SameLine y z) : SameLine x z :=
  ⟨hxy.1.trans hyz.1, hxy.2.1.trans hyz.2.1, hxy.2.2.trans hyz.2.2⟩

theorem Moving.succ (hi : i < T) (h : Moving m T q b order blks i s) (blks' : List FalruBlk) (r : Option Nat)
    (hr : r = (b :: order.erase b)[m * 2 ^ i - 1]?) (hblks : ∀ p c x, order[p]? = some c → s.1[c]? = some x → ∃ x',
    blks'[c]? = some x' ∧ SameLine x' x ∧ (∀ j < 32, j ≠ i → x'.inCachesMask.getLsbD j = x.inCachesMask.getLsbD j) ∧
    (x.inCachesMask.getLsbD i = decide (p < m * 2 ^ i) → x'.inCachesMask.getLsbD i = decide ((if p < q then p + 1 else
    p) < m * 2 ^ i))) : Moving m T q b order blks (i + 1) (blks', s.2.set i r) := by
  refine ⟨fun p c hc => ?_, by rw [List.length_set]; exact h.length, fun j hj => ?_⟩
  · obtain ⟨x, y, hx, hy, hsame, hmask⟩ := h.masks p c hc
    obtain ⟨x', hx', hsame', hother, hown⟩ := hblks p c x hc hx
    refine ⟨x', y, hx', hy, hsame'.trans hsame, fun j hj => ?_⟩
    by_cases hji : j = i
    · subst hji
      have hold := hmask j hj
      simp only [Nat.lt_irrefl, false_and, if_false, hi, true_and] at hold
      rw [hown hold]
      simp only [Nat.lt_succ_self, true_and, hi]
    · have hjs : (j < i + 1 ∧ p < q) ↔ (j < i ∧ p < q) := by omega
      rw [hother j hj hji, hmask j hj]
      simp only [hjs]
  · by_cases hji : j = i
    · subst hji
      rw [List.getElem?_set_self (by rw [h.length]; exact hj), if_pos (Nat.lt_succ_self j), hr]
    · rw [List.getElem?_set_ne (Ne.symm hji), h.bounds j hj]
      by_cases hlt : j < i
      · rw [if_pos hlt, if_pos (by omega)]
      · rw [if_neg hlt, if_neg (by omega)]

theorem moveBoundaryUp_moving {boundaries : List (Option Nat)} (hm : 2 ≤ m) (hT : T ≤ 32)
    (ht : Tracked m T blks order boundaries) (hq : order[q]? = some b) (hpos : 0 < q) {update : BitVec 32}
    (hup : ∀ i < T, update.getLsbD i = decide (m * 2 ^ i ≤ q)) (hi : i < T) (h : Moving m T q b order blks i s) :
    ∃ s', moveBoundaryUp order b update s i = .ok s' ∧ Moving m T q b order blks (i + 1) s' := by
  have hi32 : i < 32 := by omega
  have h2 := two_le_blocks hm i
  have hfit := ht.fits i hi
  have hfront := moveFront_boundary ht.nodup hq h2
  have hbounds := h.bounds i hi
  rw [if_neg (Nat.lt_irrefl i)] at hbounds
  have hsucc := h.succ hi
  have hup := hup i hi
  generalize m * 2 ^ i = n at h2 hfit hfront hbounds hsucc hup
  obtain ⟨c, hc⟩ : ∃ c, order[n - 1]? = some c := ⟨order[n - 1], List.getElem?_eq_getElem (by omega)⟩
  have hc' : order[n - 2 + 1]? = some c := by rwa [show n - 2 + 1 = n - 1 by omega]
  rw [hc] at hbounds
  by_cases hin : n ≤ q
  · -- the cache did not have the block: its last block leaves it
    have hcond : bit i &&& update ≠ 0 := by rw [bit_and_ne_zero hi32, hup, decide_eq_true hin]
    obtain ⟨xc, yc, hxc, -⟩ := h.masks (n - 1) c hc
    refine ⟨(s.1.modify c (fun x => { x with inCachesMask := x.inCachesMask &&& ~~~ bit i }), s.2.set i (prev order c)),
      ?_, hsucc _ _ ?_ fun p d x hd hx => ?_⟩
    · rw [moveBoundaryUp, if_pos hcond, boundary, hbounds]
      dsimp only
      rw [Run.ok_bind, blk, hxc]
      rfl
    · rw [hfront, if_pos (by omega), prev_eq ht.nodup hc']
    · by_cases hdc : d = c
      · subst hdc
        have hp : p = n - 1 := (idxOf_eq ht.nodup hd).symm.trans (idxOf_eq ht.nodup hc)
        refine ⟨{ x with inCachesMask := x.inCachesMask &&& ~~~ bit i }, by rw [List.getElem?_modify_eq, hx]; rfl,
          ⟨rfl, rfl, rfl⟩, fun j hj hji => ?_, fun _ => ?_⟩
        · rw [getLsbD_clear i _ hj, decide_eq_true hji, Bool.and_true]
        · rw [getLsbD_clear i _ hi32, decide_eq_false (not_not_intro rfl), Bool.and_false]
          symm
          rw [decide_eq_false_iff_not]
          split <;> omega
      · have hpn : p ≠ n - 1 := by
          rintro rfl
          exact hdc (Option.some.inj (hd.symm.trans hc))
        refine ⟨x, by rw [List.getElem?_modify_ne _ _ (Ne.symm hdc), hx], ⟨rfl, rfl, rfl⟩, fun _ _ _ => rfl, fun hx => ?_⟩
        rw [hx]
        refine decide_eq_decide.2 ?_
        split <;> omega
  · -- the cache has the block: its set of blocks does not change
    have hcond : ¬ bit i &&& update ≠ 0 := by
      rw [bit_and_ne_zero hi32, hup, decide_eq_false hin]
      exact Bool.false_ne_true
    have hsame : ∀ p c x, order[p]? = some c → s.1[c]? = some x → ∃ x', s.1[c]? = some x' ∧ SameLine x' x ∧
        (∀ j < 32, j ≠ i → x'.inCachesMask.getLsbD j = x.inCachesMask.getLsbD j) ∧
        (x.inCachesMask.getLsbD i = decide (p < n) →
          x'.inCachesMask.getLsbD i = decide ((if p < q then p + 1 else p) < n)) := by
      intro p d x _ hx
      refine ⟨x, hx, ⟨rfl, rfl, rfl⟩, fun _ _ _ => rfl, fun hx => ?_⟩
      rw [hx]
      refine decide_eq_decide.2 ?_
      split <;> omega
    rw [moveBoundaryUp, if_neg hcond, hbounds]
    by_cases hcb : c = b
    · subst hcb
      have hqn : q = n - 1 := (idxOf_eq ht.nodup hq).symm.trans (idxOf_eq ht.nodup hc)
      refine ⟨(s.1, s.2.set i (prev order c)), by rw [if_pos rfl], hsucc _ _ ?_ hsame⟩
      rw [hfront, if_pos (by omega), prev_eq ht.nodup hc']
    · have hqn : q ≠ n - 1 := by
        rintro rfl
        exact hcb (Option.some.inj (hc.symm.trans hq))
      have hset : s.2.set i (some c) = s.2 := by
        obtain ⟨hlt, he⟩ := List.getElem?_eq_some_iff.1 hbounds
        rw [← he, List.set_getElem_self]
      refine ⟨s, by rw [if_neg (by rw [Option.some.injEq, Option.some.injEq]; exact hcb)], ?_⟩
      have hnext := hsucc s.1 (some c) (by rw [hfront, if_neg (by omega), hc]) hsame
      rwa [hset] at hnext

/-- The blocks in use: their contents are kept by moves of masks. -/
def SameLines (blks blks' : List FalruBlk) (order : List Nat) : Prop :=
  ∀ b ∈ order, ∃ x x', blks[b]? = some x ∧ blks'[b]? = some x' ∧ SameLine x' x

theorem moveFront_positions (hn : order.Nodup) (hq : order[q]? = some b) {c : Nat}
    (hc : (b :: order.erase b)[p]? = some c) :
    (p = 0 ∧ c = b) ∨ ∃ p', order[p']? = some c ∧ c ≠ b ∧ p = if p' < q then p' + 1 else p' := by
  cases p with
  | zero => exact Or.inl ⟨rfl, (Option.some.inj hc).symm⟩
  | succ p =>
    have hne : c ≠ b := by
      rw [List.getElem?_cons_succ] at hc
      exact (hn.mem_erase_iff.1 (List.mem_of_getElem? hc)).1
    rw [LruStack.getElem?_moveFront hn hq] at hc
    refine Or.inr ?_
    by_cases hlt : p < q
    · rw [if_pos hlt] at hc
      exact ⟨p, hc, hne, (if_pos hlt).symm⟩
    · rw [if_neg hlt] at hc
      exact ⟨p + 1, hc, hne, by rw [if_neg (by omega)]⟩

section

variable (hm : 2 ≤ m) (hT : T ≤ 32) (ht : Tracked m T f.blks f.order f.boundaries) (hnum : f.numTrackedCaches = T) (hall : f.inAllCachesMask = BitVec.ofNat 32 (2 ^ T - 1)) (hq : f.order[q]? = some b)
include hm hT ht hnum hall hq

theorem moveBlockToHead_tracked (hpos : 0 < q) :
    ∃ blks boundaries, f.moveBlockToHead b = .ok { f with blks := blks, boundaries := boundaries } ∧
      Tracked m T blks (b :: f.order.erase b) boundaries ∧ SameLines f.blks blks f.order := by
  obtain ⟨x, hx, hmask⟩ := ht.masks q b hq
  have hup : ∀ i < T, (f.inAllCachesMask ^^^ x.inCachesMask).getLsbD i = decide (m * 2 ^ i ≤ q) := by
    intro i hi
    rw [BitVec.getLsbD_xor, hall, getLsbD_allCaches (by omega), hmask i (by omega), decide_eq_true hi]
    by_cases hlt : q < m * 2 ^ i
    · rw [decide_eq_true ⟨hi, hlt⟩, decide_eq_false (by omega)]
      rfl
    · rw [decide_eq_false (fun h => hlt h.2), decide_eq_true (by omega)]
      rfl
  have hstart : Moving m T q b f.order f.blks 0 (f.blks, f.boundaries) := by
    refine ⟨fun p c hc => ?_, ht.length, fun j hj => ?_⟩
    · obtain ⟨y, hy, hm⟩ := ht.masks p c hc
      refine ⟨y, y, hy, hy, ⟨rfl, rfl, rfl⟩, fun j hj => ?_⟩
      rw [hm j hj]
      simp only [Nat.not_lt_zero, false_and, if_false]
    · rw [ht.bounds j hj, if_neg (Nat.not_lt_zero j)]
  obtain ⟨⟨blks, boundaries⟩, hloop, hmoved⟩ :=
    foldlM_range hstart fun i hi s hs => moveBoundaryUp_moving hm hT ht hq hpos hup hi hs
  refine ⟨blks.modify b (fun x => { x with inCachesMask := f.inAllCachesMask }), boundaries, ?_, ?_, ?_⟩
  · rw [moveBlockToHead, blk, hx]
    dsimp only
    rw [Run.ok_bind, hnum, hloop]
    rfl
  · have hperm := List.perm_cons_erase (List.mem_of_getElem? hq)
    refine ⟨hperm.nodup_iff.1 ht.nodup, fun p c hc => ?_, hmoved.length, fun i hi => ?_, fun i hi => ?_⟩
    · rcases moveFront_positions ht.nodup hq hc with ⟨rfl, rfl⟩ | ⟨p', hc', hne, rfl⟩
      · obtain ⟨y, -, hy, -⟩ := hmoved.masks q c hq
        refine ⟨{ y with inCachesMask := f.inAllCachesMask }, by rw [List.getElem?_modify_eq, hy]; rfl, fun i hi => ?_⟩
        have hpos : 0 < m * 2 ^ i := Nat.lt_of_lt_of_le (by omega) (two_le_blocks hm i)
        change f.inAllCachesMask.getLsbD i = _
        rw [hall, getLsbD_allCaches hi]
        simp only [hpos, and_true]
      · obtain ⟨y, -, hy, -, -, hmask⟩ := hmoved.masks p' c hc'
        refine ⟨y, by rw [List.getElem?_modify_ne _ _ (Ne.symm hne), hy], fun i hi => ?_⟩
        rw [hmask i hi]
        refine decide_eq_decide.2 (and_congr_right fun hiT => ?_)
        simp only [hiT, true_and]
    · have := hmoved.bounds i hi
      rwa [if_pos hi] at this
    · rw [← hperm.length_eq]
      exact ht.fits i hi
  · intro c hc
    obtain ⟨p, hp⟩ := List.getElem?_of_mem hc
    obtain ⟨y, z, hy, hz, hsame, -⟩ := hmoved.masks p c hp
    by_cases hcb : c = b
    · subst hcb
      exact ⟨z, { y with inCachesMask := f.inAllCachesMask }, hz, by rw [List.getElem?_modify_eq, hy]; rfl, hsame⟩
    · exact ⟨z, y, hz, by rw [List.getElem?_modify_ne _ _ (Ne.symm hcb), hy], hsame⟩

theorem moveToHead_tracked : ∃ blks boundaries, f.moveToHead b =
        .ok { f with blks := blks, boundaries := boundaries, order := b :: f.order.erase b } ∧
      Tracked m T blks (b :: f.order.erase b) boundaries ∧ SameLines f.blks blks f.order := by
  by_cases hhead : f.order.head? = some b
  · have hfront : b :: f.order.erase b = f.order := by
      cases ho : f.order with
      | nil =>
        rw [ho] at hhead
        cases hhead
      | cons c rest =>
        rw [ho, List.head?_cons, Option.some.injEq] at hhead
        rw [hhead, List.erase_cons_head]
    refine ⟨f.blks, f.boundaries, ?_, by rw [hfront]; exact ht, fun c hc => ?_⟩
    · rw [moveToHead, if_neg (not_not_intro hhead), hfront]
    · obtain ⟨p, hp⟩ := List.getElem?_of_mem hc
      obtain ⟨x, hx, -⟩ := ht.masks p c hp
      exact ⟨x, x, hx, hx, rfl, rfl, rfl⟩
  · have hpos : 0 < q := by
      rcases Nat.eq_zero_or_pos q with rfl | hpos
      · rw [← List.head?_eq_getElem?] at hq
        exact absurd hq hhead
      · exact hpos
    obtain ⟨blks, boundaries, hmove, htracked, hsame⟩ := moveBlockToHead_tracked hm hT ht hnum hall hq hpos
    refine ⟨blks, boundaries, ?_, htracked, hsame⟩
    rw [moveToHead, if_pos hhead, hmove]
    rfl

end

end FaLru

end Gem5
