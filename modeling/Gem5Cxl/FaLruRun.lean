import Gem5Cxl.FaLruTracked
import Mathlib.Data.List.InsertIdx
/-!
# FaLruRun — what the FALRU statistics count

The keys of the valid blocks, in LRU order, are those of an LRU cache, and the masks say which of them a smaller cache
would have.  But `accessBlock` moves the block to the front, into all caches, before `recordAccess` reads its mask: the
counters of all tracked caches count the hits of the actual one.
-/
namespace Gem5

namespace FaLru

/-! ## The first state -/

structure Init (m T N p j : Nat) (mask : BitVec 32) (blks : List FalruBlk) (boundaries : List (Option Nat)) : Prop where
  length : blks.length = N
  invalid : ∀ x ∈ blks, x.valid = false
  masks : ∀ p' < p, ∃ x, blks[p']? = some x ∧ ∀ i < 32, x.inCachesMask.getLsbD i = decide (i < T ∧ p' < m * 2 ^ i)
  found : j ≤ T
  passed : ∀ i < T, i < j ↔ m * 2 ^ i ≤ p
  mask : ∀ i < 32, mask.getLsbD i = decide (i < T ∧ j ≤ i)
  slots : boundaries.length = T
  bounds : ∀ i < j, boundaries[i]? = some (some (m * 2 ^ i - 1))

variable {j m N T b c t q victim n hits misses : Nat} {blks blks' : List FalruBlk} {boundaries : List (Option Nat)}
  {mask : BitVec 32} {x : FalruBlk} {order l : List Nat} {L : List (Addr × Bool)} {f : FaLru} {k : Addr × Bool}
  {addr : Addr} {isSecure : Bool}

theorem blocks_lt (hm : 0 < m) {i : Nat} (h : i < j) : m * 2 ^ i < m * 2 ^ j :=
  Nat.mul_lt_mul_of_pos_left (Nat.pow_lt_pow_right (by decide) h) hm

theorem Init.setMask {p : Nat} (h : Init m T N p j mask blks boundaries) (hp : p < N) :
    ∀ p' < p + 1, ∃ x, (blks.modify p (fun x => { x with inCachesMask := mask }))[p']? = some x ∧
      ∀ i < 32, x.inCachesMask.getLsbD i = decide (i < T ∧ p' < m * 2 ^ i) := by
  intro p' hp'
  by_cases hlt : p' < p
  · obtain ⟨x, hx, hmask⟩ := h.masks p' hlt
    exact ⟨x, by rw [List.getElem?_modify_ne _ _ (by omega), hx], hmask⟩
  · obtain rfl : p' = p := by omega
    have hlen : p' < blks.length := by rw [h.length]; exact hp
    refine ⟨{ blks[p'] with inCachesMask := mask }, ?_, fun i hi => ?_⟩
    · rw [List.getElem?_modify_eq, List.getElem?_eq_getElem hlen]
      rfl
    · change mask.getLsbD i = _
      rw [h.mask i hi]
      refine decide_eq_decide.2 (and_congr_right fun hiT => ?_)
      have := h.passed i hiT
      omega

theorem invalid_modify (h : ∀ x ∈ blks, x.valid = false) (p : Nat) (mask : BitVec 32) :
    ∀ x ∈ blks.modify p (fun x => { x with inCachesMask := mask }), x.valid = false := by
  intro x hx
  obtain ⟨q, hq⟩ := List.getElem?_of_mem hx
  rw [List.getElem?_modify] at hq
  obtain ⟨y, hy, rfl⟩ := Option.map_eq_some_iff.1 hq
  have := h y (List.mem_of_getElem? hy)
  split <;> exact this

/-- **`CacheTracking::init` sets masks and boundaries by position.** -/
theorem initLoop_init {blkSize : Nat} (hm : 0 < m) (hblk : 0 < blkSize) (hN : N = m * 2 ^ T) :
    ∀ n p j mask blks boundaries, p + n = N → Init m T N p j mask blks boundaries →
      ∃ mask' blks' boundaries', initLoop blkSize (N - 1) (List.range' p n) j (p * blkSize) (m * blkSize * 2 ^ j) mask
        blks boundaries = (blks', boundaries') ∧ Init m T N N T mask' blks' boundaries'
  | 0, p, j, mask, blks, boundaries, hp, h => by
    obtain rfl : p = N := hp
    have hj : j = T := by
      by_contra hne
      have hlt : j < T := Nat.lt_of_le_of_ne h.found hne
      have := (h.passed j hlt).2 (by rw [hN]; exact Nat.le_of_lt (blocks_lt hm hlt))
      omega
    subst hj
    exact ⟨mask, blks, boundaries, rfl, h⟩
  | n + 1, p, j, mask, blks, boundaries, hp, h => by
    have hsize : p * blkSize + blkSize = m * blkSize * 2 ^ j ↔ p + 1 = m * 2 ^ j := by
      rw [← Nat.succ_mul, Nat.mul_right_comm]
      exact Nat.mul_left_inj (Nat.ne_of_gt hblk)
    rw [List.range'_succ, initLoop]
    by_cases hbound : p * blkSize + blkSize = m * blkSize * 2 ^ j ∧ p ≠ N - 1
    · have hat : p + 1 = m * 2 ^ j := hsize.1 hbound.1
      have hjT : j < T := by
        rcases Nat.lt_or_eq_of_le h.found with hlt | rfl
        · exact hlt
        · omega
      have hnext : m * blkSize * 2 ^ (j + 1) = 2 * (m * blkSize * 2 ^ j) := by
        rw [Nat.pow_succ, ← Nat.mul_assoc, Nat.mul_comm]
      rw [if_pos hbound, ← Nat.succ_mul, ← hnext]
      refine initLoop_init hm hblk hN n (p + 1) (j + 1) _ _ _ (by omega) ?_
      refine ⟨by rw [List.length_modify, h.length], invalid_modify h.invalid p mask, h.setMask (by omega), hjT,
        fun i hi => ?_, fun i hi => ?_, by rw [List.length_set, h.slots], fun i hi => ?_⟩
      · rcases Nat.lt_trichotomy i j with hlt | rfl | hgt
        · have := blocks_lt hm hlt
          omega
        · omega
        · have := blocks_lt hm hgt
          omega
      · rw [getLsbD_clear j mask hi, h.mask i hi, ← Bool.decide_and]
        refine decide_eq_decide.2 ?_
        omega
      · by_cases hij : i = j
        · subst hij
          rw [List.getElem?_set_self (by rw [h.slots]; exact hjT), ← hat]
          rfl
        · rw [List.getElem?_set_ne (Ne.symm hij)]
          exact h.bounds i (by omega)
    · rw [if_neg hbound, ← Nat.succ_mul]
      refine initLoop_init hm hblk hN n (p + 1) j _ _ _ (by omega) ?_
      refine ⟨by rw [List.length_modify, h.length], invalid_modify h.invalid p mask, h.setMask (by omega), h.found,
        fun i hi => ?_, h.mask, h.slots, h.bounds⟩
      rw [h.passed i hi]
      refine ⟨fun hle => by omega, fun hle => ?_⟩
      -- a boundary at the next position would be the `j`-th, and is only passed over at the last block
      by_contra hnot
      have heq : m * 2 ^ i = p + 1 := by omega
      have hlast : p + 1 ≠ N := by
        have := blocks_lt hm hi
        omega
      rcases Nat.lt_trichotomy i j with hlt | rfl | hgt
      · have := (h.passed i hi).1 hlt
        omega
      · exact hbound ⟨hsize.2 heq.symm, by omega⟩
      · have hjT : j < T := by omega
        have := blocks_lt hm hgt
        have := (h.passed j hjT).2 (by omega)
        omega

theorem Init.tracked (h : Init m T N N T mask blks boundaries) (hm : 0 < m) (hN : N = m * 2 ^ T) :
    Tracked m T blks (List.range N) boundaries := by
  refine ⟨List.nodup_range, fun p q hq => ?_, h.slots, fun i hi => ?_, fun i hi => ?_⟩
  · obtain ⟨hlt, rfl⟩ := List.getElem?_eq_some_iff.1 hq
    rw [List.length_range] at hlt
    rw [List.getElem_range]
    exact h.masks p hlt
  · have := blocks_lt hm hi
    rw [h.bounds i hi, List.getElem?_range (by omega)]
  · rw [List.length_range, hN]
    exact blocks_lt hm hi

theorem create_tracked (hbt : b < t) (hbc : b ≤ c) : ∃ blks boundaries, create (2 ^ b) (2 ^ c) (2 ^ t) =
        { blkSize := 2 ^ b, minTrackedSize := 2 ^ t, numTrackedCaches := c - t
          inAllCachesMask := BitVec.ofNat 32 (2 ^ (c - t) - 1), blks := blks, order := List.range (2 ^ (c - b))
          tagHash := ∅, boundaries := boundaries, hits := List.replicate (c - t + 1) 0
          misses := List.replicate (c - t + 1) 0, accesses := 0 } ∧
      Tracked (2 ^ (t - b)) (c - t) blks (List.range (2 ^ (c - b))) boundaries ∧ ∀ x ∈ blks, x.valid = false := by
  have hblocks : 2 ^ c / 2 ^ b = 2 ^ (c - b) := Nat.pow_div hbc (by decide)
  have hnum : (if 2 ^ t < 2 ^ c then Nat.log2 (2 ^ c) - Nat.log2 (2 ^ t) else 0) = c - t := by
    rw [Nat.log2_two_pow, Nat.log2_two_pow]
    split
    · rfl
    · rename_i hge
      have := (Nat.pow_le_pow_iff_right (a := 2) (by decide)).1 (Nat.not_lt.1 hge)
      omega
  have hm : 0 < 2 ^ (t - b) := Nat.two_pow_pos _
  have hlen : (List.replicate (2 ^ (c - b)) ({} : FalruBlk)).length = 2 ^ (c - b) := List.length_replicate
  have hinvalid : ∀ x ∈ List.replicate (2 ^ (c - b)) ({} : FalruBlk), x.valid = false := fun x hx => by
    rw [List.eq_of_mem_replicate hx]
  simp only [create, hblocks, hnum]
  by_cases hT : c - t = 0
  · refine ⟨_, _, rfl, ⟨List.nodup_range, fun p q hq => ⟨{}, ?_, fun i _ => ?_⟩, ?_, fun i hi => ?_, fun i hi => ?_⟩, ?_⟩
    · rw [if_pos hT, initLoop]
      obtain ⟨hlt, rfl⟩ := List.getElem?_eq_some_iff.1 hq
      rw [List.length_range] at hlt
      rw [List.getElem_range, List.getElem?_replicate, if_pos hlt]
    · rw [decide_eq_false fun hno => by omega]
      exact BitVec.getLsbD_zero
    · rw [if_pos hT, initLoop, List.length_replicate]
    · omega
    · omega
    · rw [if_pos hT, initLoop]
      exact hinvalid
  · have hN : 2 ^ (c - b) = 2 ^ (t - b) * 2 ^ (c - t) := by
      rw [← Nat.pow_add]
      congr 1
      omega
    have hmin : 2 ^ (t - b) * 2 ^ b = 2 ^ t := by
      rw [← Nat.pow_add]
      congr 1
      omega
    have hstart : Init (2 ^ (t - b)) (c - t) (2 ^ (c - b)) 0 0 (BitVec.ofNat 32 (2 ^ (c - t) - 1))
        (List.replicate (2 ^ (c - b)) {}) (List.replicate (c - t) none) := by
      refine ⟨hlen, hinvalid, fun p hp => absurd hp (Nat.not_lt_zero p), Nat.zero_le _, fun i _ => ?_, fun i hi => ?_,
        List.length_replicate, fun i hi => absurd hi (Nat.not_lt_zero i)⟩
      · have := Nat.mul_pos hm (Nat.two_pow_pos i)
        omega
      · rw [getLsbD_allCaches hi]
        simp only [Nat.zero_le, and_true]
    obtain ⟨mask, blks, boundaries, hloop, hinit⟩ :=
      initLoop_init hm (Nat.two_pow_pos b) hN (2 ^ (c - b)) 0 0 _ _ _ (Nat.zero_add _) hstart
    rw [Nat.zero_mul, Nat.pow_zero, Nat.mul_one, hmin, ← List.range_eq_range'] at hloop
    refine ⟨blks, boundaries, by rw [if_neg hT, hloop], hinit.tracked hm hN, hinit.invalid⟩

/-! ## The keys -/

def keyOf (blks : List FalruBlk) (b : Nat) : Option (Addr × Bool) :=
  blks[b]?.bind fun x => if x.valid then some (x.tag, x.secure) else none

/-- **What holds between accesses**, where `L` are the keys of an LRU cache of `N` blocks: masks and boundaries are
    right, and the first blocks in the LRU order hold `L`. -/
structure Inv (m T N : Nat) (L : List (Addr × Bool)) (f : FaLru) : Prop where
  tracked : Tracked m T f.blks f.order f.boundaries
  num : f.numTrackedCaches = T
  all : f.inAllCachesMask = BitVec.ofNat 32 (2 ^ T - 1)
  nodup : L.Nodup
  fits : L.length ≤ N
  keys : f.order.map (keyOf f.blks) = L.map some ++ List.replicate (N - L.length) none
  hash : ∀ k b, f.tagHash.lookup k = some b ↔ b ∈ f.order ∧ keyOf f.blks b = some k

structure Counts (T h n : Nat) (f : FaLru) : Prop where
  hits : f.hits = List.replicate (T + 1) h
  misses : f.misses = List.replicate (T + 1) n
  accesses : f.accesses = h + n

theorem keyOf_sameLine {x' : FalruBlk} (hx : blks[b]? = some x) (hx' : blks'[b]? = some x') (h : SameLine x' x) :
    keyOf blks' b = keyOf blks b := by
  rw [keyOf, keyOf, hx, hx', Option.bind_some, Option.bind_some, h.1, h.2.1, h.2.2]

theorem keyOf_sameLines (h : SameLines blks blks' order) (hb : b ∈ order) : keyOf blks' b = keyOf blks b := by
  obtain ⟨x, x', hx, hx', hsame⟩ := h b hb
  exact keyOf_sameLine hx hx' hsame

theorem Inv.length (h : Inv m T N L f) : f.order.length = N := by
  have := congrArg List.length h.keys
  rw [List.length_map, List.length_append, List.length_map, List.length_replicate] at this
  have := h.fits
  omega

theorem Inv.key_at (h : Inv m T N L f) (hq : f.order[q]? = some b) : keyOf f.blks b = L[q]? := by
  have hkey := congrArg (fun l => l[q]?) h.keys
  simp only [List.getElem?_map, hq, Option.map_some] at hkey
  rw [List.getElem?_append] at hkey
  split at hkey
  · rename_i hlt
    rw [List.length_map] at hlt
    rw [List.getElem?_map, List.getElem?_eq_getElem hlt, Option.map_some] at hkey
    rw [List.getElem?_eq_getElem hlt]
    exact Option.some.inj hkey
  · rename_i hge
    rw [List.length_map, Nat.not_lt] at hge
    rw [List.getElem?_replicate] at hkey
    rw [List.getElem?_eq_none hge]
    split at hkey
    · exact Option.some.inj hkey
    · cases hkey

theorem Inv.lookup_at (h : Inv m T N L f) (hq : L[q]? = some k) :
    ∃ b, f.order[q]? = some b ∧ f.tagHash.lookup k = some b := by
  have hlt : q < f.order.length := by
    rw [h.length]
    exact Nat.lt_of_lt_of_le (List.getElem?_eq_some_iff.1 hq).1 h.fits
  have hb := List.getElem?_eq_getElem hlt
  exact ⟨_, hb, (h.hash k _).2 ⟨List.mem_of_getElem? hb, by rw [h.key_at hb, hq]⟩⟩

theorem Inv.lookup_none (h : Inv m T N L f) (hk : k ∉ L) : f.tagHash.lookup k = none := by
  cases hl : f.tagHash.lookup k with
  | none => rfl
  | some b =>
    obtain ⟨hb, hkey⟩ := (h.hash k b).1 hl
    obtain ⟨q, hq⟩ := List.getElem?_of_mem hb
    rw [h.key_at hq] at hkey
    exact absurd (List.mem_of_getElem? hkey) hk

theorem erase_eq_eraseIdx (hl : l.Nodup) (hq : l[q]? = some b) : l.erase b = l.eraseIdx q := by
  obtain ⟨hlt, rfl⟩ := List.getElem?_eq_some_iff.1 hq
  exact List.erase_eq_eraseIdx_of_idxOf (hl.idxOf_getElem q hlt)

/-! ## A hit -/

theorem Inv.moveToHead (hm : 2 ≤ m) (hT : T ≤ 32) (h : Inv m T N L f) (hq : f.order[q]? = some b)
    (hk : L[q]? = some k) :
    ∃ f', f.moveToHead b = .ok f' ∧ Inv m T N (LruStack.access N L k) f' ∧ f'.order.head? = some b ∧
      f'.hits = f.hits ∧ f'.misses = f.misses ∧ f'.accesses = f.accesses ∧ f'.blkSize = f.blkSize := by
  obtain ⟨blks, boundaries, hmove, htracked, hsame⟩ := moveToHead_tracked hm hT h.tracked h.num h.all hq
  refine ⟨_, hmove, ?_, rfl, rfl, rfl, rfl, rfl⟩
  have hlt : q < L.length := (List.getElem?_eq_some_iff.1 hk).1
  have haccess := LruStack.access_hit h.nodup h.fits hk
  have hlen : (LruStack.access N L k).length = L.length := by
    rw [haccess, List.length_cons, List.length_eraseIdx_of_lt hlt]
    omega
  have hb := List.mem_of_getElem? hq
  refine ⟨htracked, h.num, h.all, LruStack.nodup_access h.nodup k, LruStack.length_access N L k, ?_, fun k' c => ?_⟩
  · change (b :: f.order.erase b).map (keyOf blks) = _
    have hcongr : (b :: f.order.erase b).map (keyOf blks) = (b :: f.order.erase b).map (keyOf f.blks) :=
      List.map_congr_left fun c hc => keyOf_sameLines hsame ((List.perm_cons_erase hb).mem_iff.2 hc)
    rw [hcongr, List.map_cons, h.key_at hq, hk, erase_eq_eraseIdx h.tracked.nodup hq, ← List.eraseIdx_map, h.keys,
      List.eraseIdx_append_of_lt_length (by rw [List.length_map]; exact hlt), List.eraseIdx_map, hlen, haccess]
    rfl
  · rw [h.hash k' c]
    have hiff : c ∈ b :: f.order.erase b ↔ c ∈ f.order := (List.perm_cons_erase hb).mem_iff.symm
    change _ ↔ c ∈ b :: f.order.erase b ∧ keyOf blks c = some k'
    rw [hiff]
    exact and_congr_right fun hc => by rw [keyOf_sameLines hsame hc]

/-! ## A miss -/

theorem keyOf_set (hb : b < blks.length) (x : FalruBlk) (c : Nat) :
    keyOf (blks.set b x) c = if c = b then (if x.valid then some (x.tag, x.secure) else none) else keyOf blks c := by
  by_cases hc : c = b
  · subst hc
    rw [if_pos rfl, keyOf, List.getElem?_set_self hb, Option.bind_some]
  · rw [if_neg hc, keyOf, List.getElem?_set_ne (Ne.symm hc), ← keyOf]

theorem Tracked.set (h : Tracked m T blks order boundaries) {y : FalruBlk} (hx : blks[b]? = some x)
    (hmask : y.inCachesMask = x.inCachesMask) : Tracked m T (blks.set b y) order boundaries := by
  refine ⟨h.nodup, fun p c hc => ?_, h.length, h.bounds, h.fits⟩
  obtain ⟨z, hz, hm⟩ := h.masks p c hc
  by_cases hcb : b = c
  · subst hcb
    obtain rfl : z = x := Option.some.inj (hz.symm.trans hx)
    exact ⟨y, List.getElem?_set_self (List.getElem?_eq_some_iff.1 hx).1, fun i hi => by rw [hmask, hm i hi]⟩
  · exact ⟨z, by rw [List.getElem?_set_ne hcb, hz], hm⟩

theorem nodup_getLast (hl : l.Nodup) (hb : l.getLast? = some b) : l = l.dropLast ++ [b] ∧ b ∉ l.dropLast := by
  have heq : l = l.dropLast ++ [b] := (List.dropLast_append_getLast? b hb).symm
  refine ⟨heq, fun hmem => ?_⟩
  rw [heq] at hl
  exact (List.nodup_append.1 hl).2.2 b hmem b (List.mem_singleton_self b) rfl

theorem Inv.front_keys (h : Inv m T N L f) : f.order.dropLast.map (keyOf f.blks) =
      (L.take (N - 1)).map some ++ List.replicate (N - 1 - L.length) none := by
  have hmin : min (N - 1 - L.length) (N - L.length) = N - 1 - L.length := by omega
  rw [List.dropLast_eq_take, List.map_take, h.keys, h.length, List.take_append, List.length_map, ← List.map_take,
    List.take_replicate, hmin]

theorem Inv.evict_valid (h : Inv m T N L f) (hgetLast : f.order.getLast? = some victim)
    (hx : f.blks[victim]? = some x) (hvalid : x.valid = true) (hkey : keyOf f.blks victim = some (x.tag, x.secure))
    (hfull : L.length = N) : ∃ f', f.invalidate victim = .ok f' ∧ Inv m T N (L.take (N - 1)) f' ∧
      f'.order.getLast? = some victim ∧ keyOf f'.blks victim = none ∧
      f'.hits = f.hits ∧ f'.misses = f.misses ∧ f'.accesses = f.accesses ∧ f'.blkSize = f.blkSize := by
  obtain ⟨hsplit, hnotin⟩ := nodup_getLast h.tracked.nodup hgetLast
  have hmem : victim ∈ f.order := List.mem_of_getLast? hgetLast
  have hlookup : f.tagHash.lookup (x.tag, x.secure) = some victim := (h.hash _ _).2 ⟨hmem, hkey⟩
  have hlt : victim < f.blks.length := (List.getElem?_eq_some_iff.1 hx).1
  let y : FalruBlk := { x with valid := false, tag := -1, secure := false }
  have hset : ∀ c, keyOf (f.blks.set victim y) c = if c = victim then none else keyOf f.blks c := keyOf_set hlt y
  refine ⟨{ f with tagHash := f.tagHash.erase (x.tag, x.secure), blks := f.blks.set victim y }, ?_, ?_, hgetLast,
    (hset victim).trans (if_pos rfl), rfl, rfl, rfl, rfl⟩
  · simp only [invalidate, blk, hx, Run.ok_bind, hlookup, hvalid, moveToTail, hgetLast, Option.isSome_some,
      assertThat_true, ne_eq, not_true_eq_false, if_false]
    rfl
  · refine ⟨h.tracked.set hx rfl, h.num, h.all, h.nodup.sublist (List.take_sublist _ _), ?_, ?_, fun k c => ?_⟩
    · rw [List.length_take]
      omega
    · change f.order.map (keyOf (f.blks.set victim y)) = _
      have hfront : f.order.dropLast.map (keyOf (f.blks.set victim y)) = f.order.dropLast.map (keyOf f.blks) :=
        List.map_congr_left fun c hc => (hset c).trans (if_neg fun heq => hnotin (by rw [← heq]; exact hc))
      have hlenTake : (L.take (N - 1)).length = N - 1 := by
        rw [List.length_take]
        omega
      have hpos : 0 < f.order.length := List.length_pos_of_mem hmem
      have hone : N - (N - 1) = 1 := by
        rw [h.length] at hpos
        omega
      conv_lhs => rw [hsplit]
      rw [List.map_append, hfront, h.front_keys, hlenTake, hone, hfull, Nat.sub_eq_zero_of_le (Nat.sub_le N 1)]
      simp only [List.map_cons, List.map_nil, hset victim, if_true, List.replicate_zero, List.append_nil,
        List.replicate_one]
    · change (f.tagHash.erase (x.tag, x.secure)).lookup k = some c ↔ c ∈ f.order ∧ keyOf (f.blks.set victim y) c = some k
      rw [hset c]
      by_cases hk : k = (x.tag, x.secure)
      · subst hk
        rw [AList.lookup_erase]
        refine ⟨fun hno => (by cases hno), fun hin => ?_⟩
        obtain ⟨hc, hck⟩ := hin
        split at hck
        · cases hck
        · rename_i hne
          exact absurd (Option.some.inj (((h.hash _ _).2 ⟨hc, hck⟩).symm.trans hlookup)) hne
      · rw [AList.lookup_erase_ne hk, h.hash k c]
        refine and_congr_right fun hc => ?_
        split
        · rename_i heq
          rw [heq, hkey, Option.some.injEq]
          exact ⟨fun he => absurd he.symm hk, fun hno => (by cases hno)⟩
        · exact Iff.rfl

/-- **The victim of an eviction**: the last block, which has the last key if all blocks are in use. -/
theorem Inv.evict (hN : 0 < N) (h : Inv m T N L f) :
    ∃ victim x f', f.findVictim = .ok victim ∧ blk f.blks victim = .ok x ∧
      (if x.valid then f.invalidate victim else .ok f) = .ok f' ∧ Inv m T N (L.take (N - 1)) f' ∧
      f'.order.getLast? = some victim ∧ keyOf f'.blks victim = none ∧
      f'.hits = f.hits ∧ f'.misses = f.misses ∧ f'.accesses = f.accesses ∧ f'.blkSize = f.blkSize := by
  have hlen := h.length
  have hlast : f.order[N - 1]? = some (f.order.get ⟨N - 1, by omega⟩) := List.getElem?_eq_getElem (by omega)
  generalize f.order.get ⟨N - 1, by omega⟩ = victim at hlast
  have hgetLast : f.order.getLast? = some victim := by rw [List.getLast?_eq_getElem?, hlen, hlast]
  obtain ⟨x, hx, -⟩ := h.tracked.masks _ _ hlast
  have hvictim : f.findVictim = .ok victim := by rw [findVictim, hgetLast]
  have hblk : blk f.blks victim = .ok x := by rw [blk, hx]
  have hkey : keyOf f.blks victim = if x.valid then some (x.tag, x.secure) else none := by
    rw [keyOf, hx, Option.bind_some]
  have hkeyL := h.key_at hlast
  rw [hkey] at hkeyL
  cases hvalid : x.valid with
  | false =>
    simp only [hvalid, Bool.false_eq_true, if_false] at hkeyL hkey
    have hfull : L.take (N - 1) = L := List.take_of_length_le (List.getElem?_eq_none_iff.1 hkeyL.symm)
    refine ⟨victim, x, f, hvictim, hblk, ?_, by rw [hfull]; exact h, hgetLast, hkey, rfl, rfl, rfl, rfl⟩
    rw [hvalid]
    rfl
  | true =>
    simp only [hvalid, if_true] at hkeyL hkey
    have hfull : L.length = N := by
      have := (List.getElem?_eq_some_iff.1 hkeyL.symm).1
      have := h.fits
      omega
    obtain ⟨f', hf', hrest⟩ := h.evict_valid hgetLast hx hvalid hkey hfull
    exact ⟨victim, x, f', hvictim, hblk, by rw [if_pos hvalid]; exact hf', hrest⟩

theorem Inv.insertBlock (hm : 2 ≤ m) (hT : T ≤ 32) (hN : 0 < N) (h : Inv m T N L f) (hroom : L.length ≤ N - 1)
    (hgetLast : f.order.getLast? = some victim) (hkey : keyOf f.blks victim = none)
    (hk : (f.extractTag addr, isSecure) ∉ L) :
    ∃ f', f.insertBlock addr isSecure victim = .ok f' ∧ Inv m T N ((f.extractTag addr, isSecure) :: L) f' ∧
      f'.hits = f.hits ∧ f'.misses = f.misses ∧ f'.accesses = f.accesses ∧ f'.blkSize = f.blkSize := by
  have hlast : f.order[N - 1]? = some victim := by rw [← hgetLast, List.getLast?_eq_getElem?, h.length]
  obtain ⟨hsplit, hnotin⟩ := nodup_getLast h.tracked.nodup hgetLast
  have hmem : victim ∈ f.order := List.mem_of_getLast? hgetLast
  obtain ⟨x, hx, hmask⟩ := h.tracked.masks _ _ hlast
  have hlt : victim < f.blks.length := (List.getElem?_eq_some_iff.1 hx).1
  have hzero : x.inCachesMask = 0 := by
    refine BitVec.eq_of_getLsbD_eq fun i hi => ?_
    rw [hmask i hi]
    refine (decide_eq_false fun hin => ?_).trans BitVec.getLsbD_zero.symm
    obtain ⟨hiT, hlt⟩ := hin
    have := h.tracked.fits i hiT
    rw [h.length] at this
    omega
  have hinvalid : x.valid = false := by
    rw [keyOf, hx, Option.bind_some] at hkey
    split at hkey
    · cases hkey
    · rename_i hno
      exact Bool.eq_false_iff.2 hno
  let y : FalruBlk := { x with valid := true, tag := f.extractTag addr, secure := isSecure }
  have hset : ∀ c, keyOf (f.blks.set victim y) c =
      if c = victim then some (f.extractTag addr, isSecure) else keyOf f.blks c := keyOf_set hlt y
  obtain ⟨blks, boundaries, hmove, htracked, hsame⟩ := moveToHead_tracked (f := { f with blks := f.blks.set victim y })
    hm hT (h.tracked.set hx rfl) h.num h.all hlast
  have hnew : ∀ c ∈ f.order, keyOf blks c = if c = victim then some (f.extractTag addr, isSecure) else keyOf f.blks c :=
    fun c hc => (keyOf_sameLines hsame hc).trans (hset c)
  refine ⟨{ f with blks := blks, boundaries := boundaries, order := victim :: f.order.erase victim
                   tagHash := f.tagHash.insert (f.extractTag addr, isSecure) victim },
    ?_, ?_, rfl, rfl, rfl, rfl⟩
  · simp only [FaLru.insertBlock, blk, hx, Run.ok_bind, hzero, hinvalid, decide_true, Bool.not_false, assertThat_true]
    rw [show ({ valid := true, tag := f.extractTag addr, secure := isSecure, inCachesMask := 0 } : FalruBlk) = y by
      rw [← hzero], hmove]
    rfl
  · have hperm := List.perm_cons_erase hmem
    have herase : f.order.erase victim = f.order.dropLast := by
      conv_lhs => rw [hsplit]
      rw [List.erase_append_right _ hnotin, List.erase_cons_head, List.append_nil]
    refine ⟨htracked, h.num, h.all, List.nodup_cons.2 ⟨hk, h.nodup⟩, ?_, ?_, fun k c => ?_⟩
    · rw [List.length_cons]
      omega
    · change (victim :: f.order.erase victim).map (keyOf blks) = _
      have hrest : N - 1 - L.length = N - (L.length + 1) := by omega
      have hfront : f.order.dropLast.map (keyOf blks) = f.order.dropLast.map (keyOf f.blks) :=
        List.map_congr_left fun c hc => (hnew c ((List.dropLast_sublist _).subset hc)).trans
          (if_neg fun heq => hnotin (by rw [← heq]; exact hc))
      rw [herase, List.map_cons, hfront, h.front_keys, hnew victim hmem, if_pos rfl, List.take_of_length_le hroom,
        hrest]
      rfl
    · change (f.tagHash.insert (f.extractTag addr, isSecure) victim).lookup k = some c ↔
        c ∈ victim :: f.order.erase victim ∧ keyOf blks c = some k
      rw [← hperm.mem_iff]
      refine Iff.trans ?_ (and_congr_right fun hc => by rw [hnew c hc])
      by_cases hkk : k = (f.extractTag addr, isSecure)
      · subst hkk
        rw [AList.lookup_insert, Option.some.injEq]
        refine ⟨fun heq => heq ▸ ⟨hmem, if_pos rfl⟩, fun hin => ?_⟩
        obtain ⟨hc, hck⟩ := hin
        split at hck
        · rename_i heq
          exact heq.symm
        · have := (h.hash _ _).2 ⟨hc, hck⟩
          rw [h.lookup_none hk] at this
          cases this
      · rw [AList.lookup_insert_ne hkk, h.hash k c]
        refine and_congr_right fun hc => ?_
        split
        · rename_i heq
          rw [heq, hkey, Option.some.injEq]
          exact ⟨fun hno => (by cases hno), fun he => absurd he.symm hkk⟩
        · exact Iff.rfl

/-! ## The counters -/

theorem mapIdx_replicate {a : Nat} {g : Nat → Nat → Nat} (h : ∀ i < n, g i a = c) :
    (List.replicate n a).mapIdx g = List.replicate n c := by
  refine List.ext_getElem? fun i => ?_
  rw [List.getElem?_mapIdx, List.getElem?_replicate, List.getElem?_replicate]
  split
  · rename_i hi
    rw [Option.map_some, h i hi]
  · rfl

/-- A block that all caches have counts as a hit in all of them, and no block as a miss. -/
theorem Counts.recordAccess {h : Nat} (hc : Counts T h n f) {b : Option FalruBlk} (hit : Bool) (hhit : ∀ i ≤ T, (if i
    < f.numTrackedCaches then b.any (fun x => decide (bit i &&& x.inCachesMask ≠ 0)) else b.any (fun x => x.valid)) =
    hit) : Counts T (h + hit.toNat) (n + (!hit).toNat) (f.recordAccess b) := by
  refine ⟨?_, ?_, ?_⟩
  · change f.hits.mapIdx _ = _
    rw [hc.hits]
    refine mapIdx_replicate fun i hi => ?_
    beta_reduce
    rw [hhit i (Nat.lt_succ_iff.1 hi)]
    cases hit <;> rfl
  · change f.misses.mapIdx _ = _
    rw [hc.misses]
    refine mapIdx_replicate fun i hi => ?_
    beta_reduce
    rw [hhit i (Nat.lt_succ_iff.1 hi)]
    cases hit <;> rfl
  · change f.accesses + 1 = _
    rw [hc.accesses]
    cases hit
    · rfl
    · exact (Nat.add_right_comm h 1 n).symm

theorem Inv.recordAccess (h : Inv m T N L f) (b : Option FalruBlk) : Inv m T N L (f.recordAccess b) :=
  ⟨h.tracked, h.num, h.all, h.nodup, h.fits, h.keys, h.hash⟩

theorem valid_of_keyOf (hx : blks[b]? = some x) (hk : keyOf blks b = some k) :
    x.valid = true ∧ (x.tag, x.secure) = k := by
  rw [keyOf, hx, Option.bind_some] at hk
  split at hk
  · rename_i hvalid
    exact ⟨hvalid, Option.some.inj hk⟩
  · cases hk

/-- **A hit counts in every tracked cache**, because the mask is read after the move to the front; the mask from before,
    which is returned, is that of the caches that have the key. -/
theorem Inv.accessBlock_hit (hm : 2 ≤ m) (hT : T ≤ 32) (h : Inv m T N L f) (hc : Counts T hits misses f)
    (hq : L[q]? = some (f.extractTag addr, isSecure)) :
    ∃ f' b mask, f.accessBlock addr isSecure = .ok (f', some b, mask) ∧
      Inv m T N (LruStack.access N L (f.extractTag addr, isSecure)) f' ∧ Counts T (hits + 1) misses f' ∧
      f'.blkSize = f.blkSize ∧ ∀ i < T, mask.getLsbD i = decide (q < m * 2 ^ i) := by
  obtain ⟨b, hb, hlookup⟩ := h.lookup_at hq
  obtain ⟨x, hx, hmask⟩ := h.tracked.masks q b hb
  obtain ⟨hvalid, hline⟩ := valid_of_keyOf hx ((h.key_at hb).trans hq)
  obtain ⟨htag, hsecure⟩ := Prod.mk.inj hline
  have hfind : f.findBlock addr isSecure = .ok (some b) := by
    simp only [findBlock, hlookup, blk, hx, Run.ok_bind, hvalid, if_true, htag, hsecure, decide_true, assertThat_true]
  obtain ⟨f', hmove, hinv, hhead, hhits, hmisses, haccesses, hblk⟩ := h.moveToHead hm hT hb hq
  have hfront : f'.order[0]? = some b := by rw [← hhead, List.head?_eq_getElem?]
  obtain ⟨x', hx', hmask'⟩ := hinv.tracked.masks 0 b hfront
  have hkey' : keyOf f'.blks b = some (f.extractTag addr, isSecure) := by
    rw [hinv.key_at hfront, LruStack.access_hit h.nodup h.fits hq]
    rfl
  have hvalid' := (valid_of_keyOf hx' hkey').1
  refine ⟨f'.recordAccess (some x'), b, x.inCachesMask, ?_, hinv.recordAccess _, ?_, hblk, fun i hi => ?_⟩
  · rw [accessBlock, hfind]
    simp only [Run.ok_bind, blk, hx, hx', hvalid, if_true, hmove]
  · refine Counts.recordAccess (f := f') ⟨hhits.trans hc.hits, hmisses.trans hc.misses, haccesses.trans hc.accesses⟩
      true fun i hi => ?_
    split
    · rename_i hlt
      rw [hinv.num] at hlt
      rw [Option.any_some, decide_eq_true_iff, bit_and_ne_zero (by omega), hmask' i (by omega), decide_eq_true_iff]
      exact ⟨hlt, Nat.lt_of_lt_of_le Nat.zero_lt_two (two_le_blocks hm i)⟩
    · rw [Option.any_some, hvalid']
  · rw [hmask i (by omega)]
    simp only [hi, true_and]

/-- **A miss counts in every tracked cache**, and nothing else changes. -/
theorem Inv.accessBlock_miss (h : Inv m T N L f) (hc : Counts T hits misses f)
    (hk : (f.extractTag addr, isSecure) ∉ L) : f.accessBlock addr isSecure = .ok (f.recordAccess none, none, 0) ∧
      Counts T hits (misses + 1) (f.recordAccess none) := by
  refine ⟨?_, Counts.recordAccess hc false fun i _ => ?_⟩
  · simp only [accessBlock, findBlock, h.lookup_none hk, Run.ok_bind]
  · split <;> rfl

/-- **One access**, with the eviction and the insertion on a miss: the keys are those of an LRU cache, and every counter
    counts what happens in it. -/
theorem Inv.step (hm : 2 ≤ m) (hT : T ≤ 32) (hN : 0 < N) (h : Inv m T N L f) (hc : Counts T hits misses f)
    (addr : Addr) (isSecure : Bool) : ∃ f' mask, f.step addr isSecure = .ok (f', mask) ∧
      Inv m T N (LruStack.access N L (f.extractTag addr, isSecure)) f' ∧
      Counts T (hits + if (f.extractTag addr, isSecure) ∈ L then 1 else 0)
        (misses + if (f.extractTag addr, isSecure) ∈ L then 0 else 1) f' ∧ f'.blkSize = f.blkSize := by
  by_cases hk : (f.extractTag addr, isSecure) ∈ L
  · obtain ⟨q, hq⟩ := List.getElem?_of_mem hk
    obtain ⟨f', b, mask, haccess, hinv, hcounts, hblk, -⟩ := h.accessBlock_hit hm hT hc hq
    rw [if_pos hk, if_pos hk]
    exact ⟨f', mask, by rw [FaLru.step, haccess]; rfl, hinv, hcounts, hblk⟩
  · obtain ⟨haccess, hcounts⟩ := h.accessBlock_miss hc hk
    obtain ⟨victim, x, f₁, hvictim, hx, hevict, hinv₁, hlast, hnone, hhits₁, hmisses₁, haccesses₁, hblk₁⟩ :=
      (h.recordAccess none).evict hN
    have htag : f₁.extractTag addr = f.extractTag addr := by
      rw [extractTag, hblk₁]
      rfl
    have hroom : (L.take (N - 1)).length ≤ N - 1 := List.length_take_le _ _
    have hk₁ : (f₁.extractTag addr, isSecure) ∉ L.take (N - 1) := by
      rw [htag]
      exact fun hmem => hk (List.mem_of_mem_take hmem)
    obtain ⟨f₂, hinsert, hinv₂, hhits₂, hmisses₂, haccesses₂, hblk₂⟩ :=
      hinv₁.insertBlock hm hT hN hroom hlast hnone hk₁
    obtain ⟨n, rfl⟩ : ∃ n, N = n + 1 := ⟨N - 1, by omega⟩
    refine ⟨f₂, 0, ?_, ?_, ?_, hblk₂.trans hblk₁⟩
    · simp only [FaLru.step, haccess, Run.ok_bind, hvictim, hx]
      split at hevict
      · rename_i hvalid
        rw [if_pos hvalid, hevict, Run.ok_bind, hinsert]
        rfl
      · rename_i hinvalid
        cases hevict
        rw [if_neg hinvalid, hinsert]
        rfl
    · rw [LruStack.access_miss hk, ← htag]
      exact hinv₂
    · rw [if_neg hk, if_neg hk]
      exact ⟨(hhits₂.trans hhits₁).trans hcounts.hits, (hmisses₂.trans hmisses₁).trans hcounts.misses,
        (haccesses₂.trans haccesses₁).trans hcounts.accesses⟩

/-! ## Runs -/

def run (f : FaLru) : List (Addr × Bool) → Except Failure FaLru
  | [] => .ok f
  | x :: xs => do
    let (f, _) ← f.step x.1 x.2
    f.run xs

/-- The number of blocks of a tracked cache, of size `minTrackedSize << i`, or of the actual one. -/
def blocksOf (f : FaLru) (i : Nat) : Nat :=
  if i < f.numTrackedCaches then (f.minTrackedSize <<< i) / f.blkSize else f.order.length

def keysOf (f : FaLru) (xs : List (Addr × Bool)) : List (Addr × Bool) := xs.map fun x => (f.extractTag x.1, x.2)

theorem create_inv (hbt : b < t) (hbc : b ≤ c) :
    Inv (2 ^ (t - b)) (c - t) (2 ^ (c - b)) [] (create (2 ^ b) (2 ^ c) (2 ^ t)) ∧
      Counts (c - t) 0 0 (create (2 ^ b) (2 ^ c) (2 ^ t)) := by
  obtain ⟨blks, boundaries, heq, htracked, hinvalid⟩ := create_tracked hbt hbc
  have hnone : ∀ p, keyOf blks p = none := fun p => by
    rw [keyOf]
    cases hp : blks[p]? with
    | none => rfl
    | some x =>
      rw [Option.bind_some, hinvalid x (List.mem_of_getElem? hp)]
      rfl
  rw [heq]
  refine ⟨⟨htracked, rfl, rfl, List.nodup_nil, Nat.zero_le _, ?_, fun k p => ?_⟩, rfl, rfl, rfl⟩
  · refine List.eq_replicate_iff.2 ⟨by rw [List.length_map, List.length_range]; rfl, fun k hk => ?_⟩
    obtain ⟨p, -, rfl⟩ := List.mem_map.1 hk
    exact hnone p
  · rw [AList.lookup_empty]
    exact ⟨fun hno => (by cases hno), fun ⟨_, hp⟩ => by rw [hnone p] at hp; cases hp⟩

theorem Inv.run (hm : 2 ≤ m) (hT : T ≤ 32) (hN : 0 < N) (xs : List (Addr × Bool)) :
    ∀ (L : List (Addr × Bool)) (f : FaLru) (hits misses : Nat), Inv m T N L f → Counts T hits misses f →
      ∃ f', f.run xs = .ok f' ∧ Counts T (hits + LruStack.hits N L (f.keysOf xs))
        (misses + (xs.length - LruStack.hits N L (f.keysOf xs))) f' ∧
        LruStack.hits N L (f.keysOf xs) ≤ xs.length := by
  induction xs with
  | nil => exact fun L f hits misses _ hc => ⟨f, rfl, hc, Nat.le_refl 0⟩
  | cons x xs ih =>
    intro L f hits misses h hc
    obtain ⟨f₁, mask, hstep, hinv, hcounts, hblk⟩ := h.step hm hT hN hc x.1 x.2
    obtain ⟨f', hrun, hcounts', hle⟩ := ih _ _ _ _ hinv hcounts
    have hkeys : f₁.keysOf xs = f.keysOf xs := by simp only [keysOf, extractTag, hblk]
    rw [hkeys] at hcounts' hle
    have hcons : LruStack.hits N L (f.keysOf (x :: xs)) = (if (f.extractTag x.1, x.2) ∈ L then 1 else 0) +
        LruStack.hits N (LruStack.access N L (f.extractTag x.1, x.2)) (f.keysOf xs) := by
      rw [keysOf, List.map_cons, LruStack.hits]
      congr
    generalize LruStack.hits N (LruStack.access N L (f.extractTag x.1, x.2)) (f.keysOf xs) = n at hcons hcounts' hle
    rw [hcons]
    refine ⟨f', by rw [FaLru.run, hstep]; exact hrun, ?_, ?_⟩
    · by_cases hx : (f.extractTag x.1, x.2) ∈ L
      · simp only [if_pos hx, List.length_cons] at hcounts' ⊢
        convert hcounts' using 1 <;> omega
      · simp only [if_neg hx, List.length_cons] at hcounts' ⊢
        convert hcounts' using 1 <;> omega
    · rw [List.length_cons]
      split <;> omega

theorem create_blocks (hbt : b < t) (hbc : b ≤ c) (i : Nat) :
    ((create (2 ^ b) (2 ^ c) (2 ^ t)).minTrackedSize <<< i) / (create (2 ^ b) (2 ^ c) (2 ^ t)).blkSize =
      2 ^ (t - b) * 2 ^ i := by
  obtain ⟨blks, boundaries, heq, -⟩ := create_tracked hbt hbc
  have hsum : t = t - b + b := by omega
  rw [heq]
  dsimp only
  rw [Nat.shiftLeft_eq, hsum, Nat.pow_add, Nat.mul_right_comm, Nat.add_sub_cancel,
    Nat.mul_div_cancel _ (Nat.two_pow_pos b)]

/-- **What the counters count**: for power-of-two sizes, which are `unsigned`, every sequence of accesses completes; hits
    and misses add up to the accesses; the counter of the actual cache has its hits; and the counter of a tracked cache
    has the hits of an LRU cache of that size exactly if no access hits the actual cache but not the smaller one. -/
theorem counters_of_smaller_caches {b c t : Nat} (hbt : b < t) (hbc : b ≤ c) (hc : c < 32) (_ : t < 32)
    (xs : List (Addr × Bool)) :
    let f₀ := create (2 ^ b) (2 ^ c) (2 ^ t)
    ∃ f, f₀.run xs = .ok f ∧ f.accesses = xs.length ∧
      f.hits[f₀.numTrackedCaches]? = some (LruStack.hits f₀.order.length [] (f₀.keysOf xs)) ∧
      ∀ i ≤ f₀.numTrackedCaches, ∃ hits misses, f.hits[i]? = some hits ∧ f.misses[i]? = some misses ∧
        hits + misses = f.accesses ∧
        (hits = LruStack.hits (f₀.blocksOf i) [] (f₀.keysOf xs) ↔
          ∀ pre k post, f₀.keysOf xs = pre ++ k :: post → k ∈ LruStack.run f₀.order.length [] pre →
            k ∈ LruStack.run (f₀.blocksOf i) [] pre) := by
  intro f₀
  have hm : 2 ≤ 2 ^ (t - b) := by
    have := Nat.pow_le_pow_right (n := 2) (by decide) (show 1 ≤ t - b by omega)
    omega
  obtain ⟨hinv, hcounts⟩ := create_inv hbt hbc
  have hnum : f₀.numTrackedCaches = c - t := hinv.num
  have hlen : f₀.order.length = 2 ^ (c - b) := hinv.length
  obtain ⟨f, hrun, hcounts', hle⟩ := Inv.run hm (by omega) (Nat.two_pow_pos _) xs _ _ _ _ hinv hcounts
  rw [Nat.zero_add, Nat.zero_add, ← hlen] at hcounts'
  rw [← hlen] at hle
  have haccesses : f.accesses = xs.length := by
    rw [hcounts'.accesses]
    exact Nat.add_sub_cancel' hle
  have hhits : ∀ i ≤ c - t, f.hits[i]? = some (LruStack.hits f₀.order.length [] (f₀.keysOf xs)) := fun i hi => by
    rw [hcounts'.hits, List.getElem?_replicate, if_pos (by omega)]
  refine ⟨f, hrun, haccesses, hhits _ (Nat.le_of_eq hnum), fun i hi => ?_⟩
  rw [hnum] at hi
  refine ⟨_, _, hhits i hi, ?_, hcounts'.accesses.symm, ?_⟩
  · rw [hcounts'.misses, List.getElem?_replicate, if_pos (by omega)]
  · have hsmall : f₀.blocksOf i ≤ f₀.order.length := by
      rw [blocksOf]
      split
      · rename_i hlt
        rw [hnum] at hlt
        have hfits := hinv.tracked.fits i hlt
        rw [create_blocks hbt hbc, hlen]
        rw [hinv.length] at hfits
        exact Nat.le_of_lt hfits
      · exact Nat.le_refl _
    have htake := (LruStack.hits_take hsmall [] (f₀.keysOf xs)).2
    rw [List.take_nil] at htake
    exact ⟨fun heq => htake.1 heq.symm, fun hall => (htake.2 hall).symm⟩

def fourBlocks : FaLru := create (2 ^ 6) (2 ^ 8) (2 ^ 7)

theorem counters_fourBlocks : ∃ f, fourBlocks.run [(0, false), (0x40, false), (0, false)] = .ok f ∧
    f.accesses = 3 := by
  obtain ⟨f, hrun, haccesses, -⟩ := counters_of_smaller_caches (b := 6) (c := 8) (t := 7) (by decide) (by decide)
    (by decide) (by decide) [(0, false), (0x40, false), (0, false)]
  exact ⟨f, hrun, haccesses⟩

/-- **A hit of the actual cache counted for a smaller one**: the third of three blocks is read before the first again, so
    that a cache of two blocks has no hit. -/
theorem tracked_hit_overcounted :
    (fourBlocks.run [(0, false), (0x40, false), (0x80, false), (0, false)]).toOption.map (fun f => f.hits) =
        some [1, 1] ∧
      fourBlocks.blocksOf 0 = 2 ∧
      LruStack.hits 2 [] (fourBlocks.keysOf [(0, false), (0x40, false), (0x80, false), (0, false)]) = 0 := by
  decide +kernel

end FaLru

end Gem5
