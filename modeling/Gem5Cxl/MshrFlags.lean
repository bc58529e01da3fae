import Gem5Cxl.Mshr
/-!
# MshrFlags — the flags of a target list, as they are kept and as they are recomputed (`mem/cache/mshr.cc`)

`add` brings the flags up to date before it appends its target; `populateFlags` resets them and runs the same update over
the stored targets.  The update asks whether the list is empty, which only the first `add` can see.  The two agree except
after one kind of first target (`populateFlags_addAll_iff`).
-/
namespace Gem5
namespace Mshr
namespace TargetList

structure AddCall where
  pkt : MissPacket
  readyTime : Nat := 0
  order : Nat := 0
  source : Source := .fromCPU
  markPending : Bool := false
  allocOnFill : Bool := false

def AddCall.target (c : AddCall) : Target :=
  ⟨c.pkt, c.readyTime, c.order, c.source, c.markPending && c.pkt.fromMshr, c.allocOnFill⟩

def addAll (l : TargetList) (cs : List AddCall) : TargetList :=
  cs.foldl (fun l c => l.add c.pkt c.readyTime c.order c.source c.markPending c.allocOnFill) l

def replay (l : TargetList) (ts : List Target) : TargetList :=
  ts.foldl (fun l t => l.updateFlags t.pkt t.source t.allocOnFill) l

def setList (l : TargetList) (list : List Target) : TargetList := { l with list := list }

/-- Bytes are recorded for this packet if it comes first, and for that reason only. -/
def FirstOnly (blkSize : Nat) (c : AddCall) : Prop :=
  0 < blkSize ∧ c.source = .fromCPU ∧ c.pkt.cmd.isWrite = true ∧ c.pkt.isMaskedWrite = false ∧
    c.pkt.req.noMerge = true ∧ 0 < c.pkt.size

variable (l : TargetList) (pkt : MissPacket) (source : Source) (allocOnFill : Bool) (t : Target) (xs ys : List Target)

/-! ## What the update reads of the list -/

theorem fillWrites_zero (bitmap : List Bool) (offset : Nat) : fillWrites bitmap offset 0 = bitmap := by
  unfold fillWrites
  refine List.ext_getElem List.length_mapIdx fun i _ _ => ?_
  rw [List.getElem_mapIdx]
  simp only [Nat.add_zero, Bool.or_eq_left_iff_imp, Bool.and_eq_true, decide_eq_true_eq]
  omega

/-- A packet that is treated alike at the head of the list and behind it. -/
def Indifferent : Prop :=
  l.writesBitmap = [] ∨ pkt.cmd.isWrite = false ∨ pkt.isMaskedWrite = true ∨ pkt.req.noMerge = false ∨ pkt.size = 0

theorem updateWriteFlags_setList (h : xs.isEmpty = l.list.isEmpty ∨ Indifferent l pkt) :
    (l.setList xs).updateWriteFlags pkt = (l.updateWriteFlags pkt).setList xs := by
  unfold updateWriteFlags setList isWholeLineWrite
  dsimp only
  split
  · rfl
  · rename_i hwhole
    split
    · split
      · rfl
      · rename_i hwrite
        rcases h with h | h | h | h | h | h
        · rw [h]
        · exact absurd (by rw [h]; rfl) hwhole
        · exact absurd (by rw [h]; rfl) hwrite
        · rw [h]
          rfl
        · rw [h]
          simp only [Bool.not_false, Bool.or_true]
        · rw [h]
          simp only [fillWrites_zero, ite_self]
    · rfl

theorem updateFlags_setList (h : xs.isEmpty = l.list.isEmpty ∨ source ≠ .fromCPU ∨ Indifferent l pkt) :
    (l.setList xs).updateFlags pkt source allocOnFill = (l.updateFlags pkt source allocOnFill).setList xs := by
  unfold updateFlags
  split
  · rename_i hsnoop
    split
    · rename_i hpf
      refine updateWriteFlags_setList { l with needsWritable := _, hasUpgrade := _, allocOnFill := _, hasFromCache := _ } pkt
        xs (h.imp_right fun h => h.resolve_left fun hne => hne ?_)
      cases source with
      | fromCPU => rfl
      | fromSnoop => exact absurd rfl hsnoop
      | fromPrefetcher => exact absurd rfl hpf
    · rfl
  · rfl

theorem setList_list : (l.setList xs).list = xs := rfl

theorem setList_setList : (l.setList xs).setList ys = l.setList ys := rfl

theorem replay_cons (ts : List Target) :
    l.replay (t :: ts) = (l.updateFlags t.pkt t.source t.allocOnFill).replay ts := rfl

theorem replay_setList (hx : xs.isEmpty = ys.isEmpty) (ts : List Target) :
    (l.setList xs).replay ts = ((l.setList ys).replay ts).setList xs := by
  induction ts generalizing l with
  | nil => rfl
  | cons t ts ih =>
    rw [replay_cons, replay_cons, ← setList_setList l ys xs, updateFlags_setList _ _ _ _ _ (.inl hx)]
    have hlist : ((l.setList ys).updateFlags t.pkt t.source t.allocOnFill).setList ys =
        (l.setList ys).updateFlags t.pkt t.source t.allocOnFill :=
      (updateFlags_setList (l.setList ys) _ _ _ ys (.inl rfl)).symm
    rw [ih, hlist]

/-! ## The calls of `add` -/

theorem addAll_cons (c : AddCall) (cs : List AddCall) :
    l.addAll (c :: cs) = ((l.updateFlags c.pkt c.source c.allocOnFill).setList (l.list ++ [c.target])).addAll cs := by
  rw [addAll, List.foldl_cons, add, updateFlags_list]
  rfl

theorem addAll_eq (hl : l.list ≠ []) (cs : List AddCall) :
    l.addAll cs = (l.replay (cs.map AddCall.target)).setList (l.list ++ cs.map AddCall.target) := by
  induction cs generalizing l with
  | nil =>
    rw [List.map_nil, List.append_nil]
    rfl
  | cons c cs ih =>
    have hempty : (l.list ++ [c.target]).isEmpty = (l.updateFlags c.pkt c.source c.allocOnFill).list.isEmpty := by
      rw [updateFlags_list, List.isEmpty_eq_false_iff.2 hl]
      exact List.isEmpty_eq_false_iff.2 (List.append_ne_nil_of_right_ne_nil _ (List.cons_ne_nil _ _))
    rw [addAll_cons, ih _ (by rw [setList_list]; exact List.append_ne_nil_of_right_ne_nil _ (List.cons_ne_nil _ _)),
      replay_setList _ _ _ hempty, setList_setList, setList_list, List.append_assoc]
    rfl

theorem updateFlags_blkSize : (l.updateFlags pkt source allocOnFill).blkSize = l.blkSize ∧
    (l.updateFlags pkt source allocOnFill).writesBitmap.length = l.writesBitmap.length := by
  unfold updateFlags updateWriteFlags fillWrites
  dsimp only
  split
  · split
    · split
      · exact ⟨rfl, rfl⟩
      · split
        · split
          · exact ⟨rfl, rfl⟩
          · refine ⟨rfl, ?_⟩
            dsimp only
            split
            · rw [List.length_mapIdx]
            · rfl
        · exact ⟨rfl, rfl⟩
    · exact ⟨rfl, rfl⟩
  · exact ⟨rfl, rfl⟩

theorem replay_blkSize (ts : List Target) :
    (l.replay ts).blkSize = l.blkSize ∧ (l.replay ts).writesBitmap.length = l.writesBitmap.length := by
  induction ts generalizing l with
  | nil => exact ⟨rfl, rfl⟩
  | cons t ts ih =>
    have hstep := l.updateFlags_blkSize t.pkt t.source t.allocOnFill
    rw [replay_cons, (ih _).1, (ih _).2]
    exact hstep

theorem updateFlags_writesBitmap (h : l.canMergeWrites = false) :
    (l.updateFlags pkt source allocOnFill).writesBitmap = l.writesBitmap ∧
      (l.updateFlags pkt source allocOnFill).canMergeWrites = false := by
  unfold updateFlags updateWriteFlags
  dsimp only
  split
  · split
    · rw [if_neg (Bool.eq_false_iff.1 h)]
      split
      · exact ⟨rfl, h⟩
      · exact ⟨rfl, h⟩
    · exact ⟨rfl, h⟩
  · exact ⟨rfl, h⟩

theorem replay_writesBitmap (h : l.canMergeWrites = false) (ts : List Target) :
    (l.replay ts).writesBitmap = l.writesBitmap := by
  induction ts generalizing l with
  | nil => rfl
  | cons t ts ih =>
    have hstep := l.updateFlags_writesBitmap t.pkt t.source t.allocOnFill h
    rw [replay_cons, ih _ hstep.2, hstep.1]

def fresh (blkSize : Nat) : TargetList := ({} : TargetList).init blkSize

theorem fresh_eq (blkSize : Nat) :
    fresh blkSize = { blkSize := blkSize, writesBitmap := List.replicate blkSize false } := by
  unfold fresh init resetFlags
  simp

theorem resetFlags_eq {blkSize : Nat} (hb : l.blkSize = blkSize) (hlen : l.writesBitmap.length = blkSize) :
    l.resetFlags = (fresh blkSize).setList l.list := by
  rw [fresh_eq]
  unfold resetFlags setList
  rw [hb, List.map_const', hlen]

/-- `populateFlags` after the calls of `add`: the replay from `init`, over a list that already holds the targets. -/
theorem populateFlags_addAll (blkSize : Nat) (c : AddCall) (cs : List AddCall) :
    ((fresh blkSize).addAll (c :: cs)).populateFlags =
      (((fresh blkSize).setList (c.target :: cs.map AddCall.target)).updateFlags c.pkt c.source c.allocOnFill).replay
        (cs.map AddCall.target) := by
  have hfresh : (fresh blkSize).list = [] := rfl
  have hsize := (fresh blkSize).updateFlags_blkSize c.pkt c.source c.allocOnFill
  rw [addAll_cons, hfresh, List.nil_append, addAll_eq _ (List.cons_ne_nil _ _), setList_list]
  have hreplay := replay_blkSize (((fresh blkSize).updateFlags c.pkt c.source c.allocOnFill).setList [c.target])
    (cs.map AddCall.target)
  have hlen : (fresh blkSize).writesBitmap.length = blkSize := by
    rw [fresh_eq]
    exact List.length_replicate
  have hreset := resetFlags_eq
    (((((fresh blkSize).updateFlags c.pkt c.source c.allocOnFill).setList [c.target]).replay
      (cs.map AddCall.target)).setList ([c.target] ++ cs.map AddCall.target)) (hreplay.1.trans hsize.1)
    ((hreplay.2.trans hsize.2).trans hlen)
  show replay (resetFlags _) _ = _
  rw [hreset]
  rfl

theorem addAll_first (blkSize : Nat) (c : AddCall) (cs : List AddCall) :
    (fresh blkSize).addAll (c :: cs) =
      ((((fresh blkSize).updateFlags c.pkt c.source c.allocOnFill).setList (c.target :: cs.map AddCall.target)).replay
        (cs.map AddCall.target)) := by
  have hfresh : (fresh blkSize).list = [] := rfl
  rw [addAll_cons, hfresh, List.nil_append, addAll_eq _ (List.cons_ne_nil _ _), setList_list, List.singleton_append,
    replay_setList _ (c.target :: cs.map AddCall.target) [c.target] rfl]

/-- The bytes of a packet that must come first: `add` records them, and a replay does not. -/
theorem updateFlags_firstOnly {blkSize : Nat} {c : AddCall} (h : FirstOnly blkSize c) (ts : List Target) :
    let l := (fresh blkSize).updateFlags c.pkt c.source c.allocOnFill
    let r := ((fresh blkSize).setList (c.target :: ts)).updateFlags c.pkt c.source c.allocOnFill
    l.canMergeWrites = false ∧ r.canMergeWrites = false ∧ r.writesBitmap = List.replicate blkSize false ∧
      l.writesBitmap ≠ List.replicate blkSize false := by
  obtain ⟨hpos, hsource, hwrite, hmasked, hmerge, hsize⟩ := h
  have hwhole : (List.replicate blkSize false).all id = false := by
    obtain ⟨n, rfl⟩ := Nat.exists_eq_add_of_lt hpos
    rw [Nat.zero_add, List.replicate_succ]
    rfl
  have hlt : c.pkt.getOffset blkSize < blkSize := Nat.mod_lt _ hpos
  rw [fresh_eq]
  simp only [updateFlags, hsource, updateWriteFlags, isWholeLineWrite, hwhole, hwrite, hmasked, hmerge, setList,
    List.isEmpty_nil, List.isEmpty_cons, Bool.not_true, Bool.not_false, Bool.or_false, Bool.and_false, Bool.and_self,
    Bool.false_eq_true, if_false, if_true, ne_eq, reduceCtorEq, not_false_eq_true, true_and]
  intro heq
  have hbit := congrArg (fun bs : List Bool => bs[c.pkt.getOffset blkSize]?) heq
  simp [fillWrites, hlt, hsize] at hbit

/-- **The flags that `add` kept are those that `populateFlags` recomputes, unless the first target is an unmasked CPU write
that cannot be merged**: its bytes were recorded because the list was empty, and on the stored list they are not. -/
theorem populateFlags_addAll_iff (blkSize : Nat) (cs : List AddCall) :
    ((fresh blkSize).addAll cs).populateFlags = (fresh blkSize).addAll cs ↔ ∀ c, cs.head? = some c → ¬ FirstOnly blkSize c := by
  cases cs with
  | nil =>
    refine iff_of_true ?_ fun c hc => absurd hc (Option.some_ne_none c).symm
    have hlen : (fresh blkSize).writesBitmap.length = blkSize := by
      rw [fresh_eq]
      exact List.length_replicate
    exact resetFlags_eq (fresh blkSize) rfl hlen
  | cons c cs =>
    rw [populateFlags_addAll, addAll_first]
    constructor
    · intro heq c' hc' hfirst
      cases hc'
      obtain ⟨hl, hr, hrbits, hlbits⟩ := updateFlags_firstOnly hfirst (cs.map AddCall.target)
      refine hlbits ?_
      have hbits := congrArg TargetList.writesBitmap heq
      rw [replay_writesBitmap _ hr, replay_writesBitmap _ (by exact hl), hrbits] at hbits
      exact hbits.symm
    · intro hnot
      rw [updateFlags_setList _ _ _ _ _ (.inr ?_)]
      have hnot := hnot c rfl
      rw [fresh_eq, Indifferent, ← List.length_eq_zero_iff, List.length_replicate]
      unfold FirstOnly at hnot
      grind

def secureWrite : AddCall := { pkt := { cmd := .writeReq, req := { isSecure := true }, size := 64 } }

/-- **A secure write of the whole block comes first**: `add` says the block is written whole, and `populateFlags` takes it
back. -/
theorem populateFlags_secureWrite : ((fresh 64).addAll [secureWrite]).isWholeLineWrite = true ∧
    ((fresh 64).addAll [secureWrite]).populateFlags.isWholeLineWrite = false := by
  decide +kernel

end TargetList
end Mshr
end Gem5
