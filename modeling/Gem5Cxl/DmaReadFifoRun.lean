import Gem5Cxl.DmaReadFifo
import Mathlib.Data.List.InsertIdx
/-!
# DmaReadFifoRun — the FIFO delivers the bytes of its blocks in order

Over every run, what was handed out, what is buffered, what the pending reads will bring and what is left of the block
are together the bytes of the blocks that were started, of which a `stopFill` keeps those received before.
-/
namespace Gem5.DmaReadFifo

open Function (update update_of_ne update_self)
open List (append_assoc append_nil flatMap_nil)

/-! ## The stream of the blocks -/

def stream (mem : Addr → Byte) (blocks : List (Addr × Nat)) : List Byte := blocks.flatMap fun b => memBytes mem b.1 b.2

section

variable (mem : Addr → Byte)

@[simp] theorem length_memBytes (a : Addr) (n : Nat) : (memBytes mem a n).length = n := by
  rw [memBytes, List.length_map, List.length_range]

@[simp] theorem memBytes_zero (a : Addr) : memBytes mem a 0 = [] := rfl

theorem memBytes_add (a : Addr) (n m : Nat) :
    memBytes mem a (n + m) = memBytes mem a n ++ memBytes mem (a + BitVec.ofNat 64 n) m := by
  rw [memBytes, List.range_add, List.map_append, List.map_map, memBytes, memBytes]
  congr 1
  refine List.map_congr_left fun i _ => ?_
  rw [Function.comp_apply, BitVec.add_assoc, ← BitVec.ofNat_add]

theorem take_memBytes (a : Addr) (n m : Nat) : (memBytes mem a m).take n = memBytes mem a (min n m) := by
  rw [memBytes, ← List.map_take, List.take_range, memBytes]

theorem stream_append (l l' : List (Addr × Nat)) :
    stream mem (l ++ l') = stream mem l ++ stream mem l' := List.flatMap_append

theorem stream_cutTo (n : Nat) (blocks : List (Addr × Nat)) :
    stream mem (cutTo n blocks) = (stream mem blocks).take n := by
  induction blocks generalizing n with
  | nil => rw [cutTo, stream, flatMap_nil, List.take_nil]
  | cons b bs ih =>
    obtain ⟨a, m⟩ := b
    have hcons : ∀ (n : Nat) (l : List (Addr × Nat)), stream mem ((a, n) :: l) = memBytes mem a n ++ stream mem l :=
      fun _ _ => List.flatMap_cons
    rw [cutTo, hcons, hcons, ih, List.take_append, take_memBytes, length_memBytes]

end

/-! ## The invariant -/

structure Config where
  size : Nat
  maxReqSize : BitVec 32
  maxPending : Nat

def wanted (mem : Addr → Byte) (f : DmaReadFifo) (addrOf : Nat → Addr) (e : Nat) : List Byte :=
  if (f.events e).canceled then [] else memBytes mem (addrOf e) (f.events e).requestSize

/-- The FIFO against the stream `total` of which `before` was handed out; the read of event `e` is from `addrOf e`. -/
structure Inv (mem : Addr → Byte) (cfg : Config) (f : DmaReadFifo) (addrOf : Nat → Addr) (before total : List Byte) :
    Prop where
  fifoSize : f.fifoSize = cfg.size
  maxReqSize : f.maxReqSize.toNat = cfg.maxReqSize.toNat
  running : f.draining = false
  capacity : f.buffer.maxSize = f.fifoSize
  data : ∀ e, (f.events e).data.length = f.maxReqSize.toNat
  sizes : ∀ e ∈ f.pendingRequests, (f.events e).requestSize ≤ f.maxReqSize.toNat
  perm : (f.freeRequests ++ f.pendingRequests).Perm (List.range cfg.maxPending)
  /-- The reads the port is at are those of the pending events that are not done. -/
  reads : f.reads.map (·.event) = f.pendingRequests.filter fun e => !(f.events e).done
  asked : ∀ r ∈ f.reads, r.addr = addrOf r.event ∧ r.size = (f.events r.event).requestSize
  arrived : ∀ e ∈ f.pendingRequests, (f.events e).done = true →
    (f.events e).data.take (f.events e).requestSize = memBytes mem (addrOf e) (f.events e).requestSize
  space : f.buffer.used + f.sizePending ≤ f.fifoSize
  stream : before ++ f.buffer.contents ++ f.pendingRequests.flatMap (wanted mem f addrOf) ++
    memBytes mem f.nextAddr (f.endAddr - f.nextAddr).toNat = total

variable {mem : Addr → Byte} {cfg : Config} {f : DmaReadFifo} {addrOf : Nat → Addr} {before total : List Byte}

theorem Inv.nodup (h : Inv mem cfg f addrOf before total) : (f.freeRequests ++ f.pendingRequests).Nodup :=
  h.perm.nodup_iff.2 List.nodup_range

variable {e : Nat} {free : List Nat} {r : DmaRead} {s : System}

theorem Inv.notPending (h : Inv mem cfg f addrOf before total) (hfree : f.freeRequests = e :: free) :
    e ∉ f.pendingRequests := by
  intro he
  exact (List.nodup_append.1 h.nodup).2.2 e (hfree ▸ List.mem_cons_self) e he rfl

/-! ## Asking for reads -/

theorem reqSize_le (f : DmaReadFifo) : f.reqSize ≤ (f.endAddr - f.nextAddr).toNat := Nat.min_le_right _ _

theorem left_issue (f : DmaReadFifo) :
    (f.endAddr - (f.nextAddr + BitVec.ofNat 64 f.reqSize)).toNat = (f.endAddr - f.nextAddr).toNat - f.reqSize := by
  have hle := reqSize_le f
  rw [← BitVec.sub_sub, BitVec.toNat_sub_of_le, BitVec.toNat_ofNat, Nat.mod_eq_of_lt]
  · have := (f.endAddr - f.nextAddr).isLt
    omega
  · rw [BitVec.le_def, BitVec.toNat_ofNat]
    exact Nat.le_trans (Nat.mod_le _ _) hle

theorem reset_eq {ev : DmaDoneEvent} {size : Nat} (h : size ≤ ev.data.length) :
    ev.reset size = .ok { ev with done := false, canceled := false, requestSize := size } := by
  rw [DmaDoneEvent.reset, decide_eq_true h, assertThat_true, Run.ok_bind]

theorem events_update_of_mem {events : Nat → DmaDoneEvent} {event : DmaDoneEvent} {l : List Nat} (he : e ∉ l)
    {j : Nat} (hj : j ∈ l) : update events e event j = events j :=
  update_of_ne (ne_of_mem_of_not_mem hj he) _ _

/-- **Asking for the next read** moves its bytes from the block to the pending reads. -/
theorem Inv.issue (h : Inv mem cfg f addrOf before total) (hfree : f.freeRequests = e :: free)
    (hspace : f.buffer.used + f.sizePending + f.reqSize ≤ f.fifoSize) :
    ∃ event, (f.events e).reset f.reqSize = .ok event ∧
      Inv mem cfg (f.issue e event) (update addrOf e f.nextAddr) before total ∧
      (f.issue e event).sizePending = f.sizePending + f.reqSize := by
  have hnot := h.notPending hfree
  have hmax : f.reqSize ≤ f.maxReqSize.toNat := Nat.min_le_left _ _
  generalize hevent : { f.events e with done := false, canceled := false, requestSize := f.reqSize } = event
  have hold : ∀ j ∈ f.pendingRequests, (f.issue e event).events j = f.events j := fun j hj => events_update_of_mem hnot hj
  have hnew : (f.issue e event).events e = event := update_self _ _ _
  have haddr : ∀ j ∈ f.pendingRequests, update addrOf e f.nextAddr j = addrOf j := fun j hj =>
    update_of_ne (ne_of_mem_of_not_mem hj hnot) _ _
  have hmem : ∀ j ∈ (f.issue e event).pendingRequests, j ∈ f.pendingRequests ∨ j = e := fun j hj =>
    (List.mem_append.1 hj).imp_right List.mem_singleton.1
  have hpend : (f.issue e event).sizePending = f.sizePending + f.reqSize := by
    change ((f.pendingRequests ++ [e]).map fun j => ((f.issue e event).events j).requestSize).sum = _
    rw [List.map_append, List.sum_append, List.map_congr_left fun j hj => by rw [hold j hj], List.map_singleton,
      List.sum_singleton, hnew, ← hevent]
    rfl
  refine ⟨event, hevent ▸ reset_eq (by rw [h.data]; exact hmax), ?_, hpend⟩
  constructor
  case fifoSize => exact h.fifoSize
  case maxReqSize => exact h.maxReqSize
  case running => exact h.running
  case capacity => exact h.capacity
  case data =>
    intro j
    by_cases hj : j = e
    · rw [hj, hnew, ← hevent]
      exact h.data e
    · change (update f.events e event j).data.length = _
      rw [update_of_ne hj]
      exact h.data j
  case sizes =>
    intro j hj
    rcases hmem j hj with hj | rfl
    · rw [hold j hj]
      exact h.sizes j hj
    · rw [hnew, ← hevent]
      exact hmax
  case perm =>
    have hp := h.perm
    rw [hfree] at hp
    change (f.freeRequests.tail ++ (f.pendingRequests ++ [e])).Perm _
    rw [hfree, List.tail_cons, ← append_assoc]
    exact (List.perm_append_singleton _ _).trans hp
  case reads =>
    have hsame : f.pendingRequests.filter (fun j => !((f.issue e event).events j).done) =
        f.pendingRequests.filter fun j => !(f.events j).done := List.filter_congr fun j hj => by rw [hold j hj]
    change (f.reads ++ [_]).map DmaRead.event = (f.pendingRequests ++ [e]).filter _
    rw [List.map_append, h.reads, List.filter_append, hsame, List.filter_singleton, hnew, ← hevent]
    rfl
  case asked =>
    intro r hr
    rcases List.mem_append.1 hr with hr | hr
    · have hin : r.event ∈ f.pendingRequests := by
        have : r.event ∈ f.reads.map (·.event) := List.mem_map_of_mem hr
        rw [h.reads] at this
        exact (List.mem_filter.1 this).1
      rw [haddr _ hin, hold _ hin]
      exact h.asked r hr
    · obtain rfl := List.mem_singleton.1 hr
      rw [update_self, hnew, ← hevent]
      exact ⟨rfl, rfl⟩
  case arrived =>
    intro j hj hdone
    rcases hmem j hj with hj | rfl
    · rw [hold j hj] at hdone ⊢
      rw [haddr j hj]
      exact h.arrived j hj hdone
    · rw [hnew, ← hevent] at hdone
      cases hdone
  case space =>
    rw [hpend]
    change f.buffer.used + (f.sizePending + f.reqSize) ≤ f.fifoSize
    omega
  case stream =>
    have hwant : ∀ j ∈ f.pendingRequests, wanted mem (f.issue e event) (update addrOf e f.nextAddr) j =
        wanted mem f addrOf j := fun j hj => by rw [wanted, wanted, hold j hj, haddr j hj]
    have hlast : wanted mem (f.issue e event) (update addrOf e f.nextAddr) e = memBytes mem f.nextAddr f.reqSize := by
      rw [wanted, hnew, ← hevent, update_self]
      rfl
    change before ++ f.buffer.contents ++ (f.pendingRequests ++ [e]).flatMap _ ++
      memBytes mem (f.nextAddr + BitVec.ofNat 64 f.reqSize) (f.endAddr - (f.nextAddr + BitVec.ofNat 64 f.reqSize)).toNat = _
    rw [List.flatMap_append, List.flatMap_congr hwant, List.flatMap_singleton, hlast, left_issue, ← h.stream,
      ← Nat.add_sub_cancel' (reqSize_le f), memBytes_add]
    simp only [append_assoc, Nat.add_sub_cancel_left]

def Saturated (f : DmaReadFifo) : Prop :=
  f.atEndOfBlock = true ∨ f.freeRequests = [] ∨ f.fifoSize < f.buffer.used + f.sizePending + f.reqSize

theorem fillLoop_lands (free : List Nat) (hfree : f.freeRequests = free) (h : Inv mem cfg f addrOf before total) :
    ∃ f' addrOf', f.fillLoop f.sizePending free = .ok f' ∧ Inv mem cfg f' addrOf' before total ∧ Saturated f' := by
  induction free generalizing f addrOf with
  | nil => exact ⟨f, addrOf, rfl, h, .inr (.inl hfree)⟩
  | cons e free ih =>
    rw [fillLoop]
    split
    · rename_i hend
      exact ⟨f, addrOf, rfl, h, .inl hend⟩
    · split
      · rename_i hfull
        exact ⟨f, addrOf, rfl, h, .inr (.inr hfull)⟩
      · rename_i hroom
        obtain ⟨event, hreset, hinv, hpend⟩ := h.issue hfree (Nat.not_lt.1 hroom)
        rw [hreset, Run.ok_bind, ← hpend]
        exact ih (by change f.freeRequests.tail = free; rw [hfree, List.tail_cons]) hinv

theorem Inv.setBlock (h : Inv mem cfg f addrOf before total) (hend : f.atEndOfBlock = true) (b : Block) :
    Inv mem cfg (f.setBlock b) addrOf before (total ++ memBytes mem b.1 b.2.toNat) := by
  have heq : f.nextAddr = f.endAddr := of_decide_eq_true hend
  have hnil : memBytes mem f.nextAddr (f.endAddr - f.nextAddr).toNat = [] := by
    rw [heq, BitVec.sub_self]
    rfl
  refine { h with space := h.space, stream := ?_ }
  have hs := h.stream
  rw [hnil, append_nil] at hs
  change before ++ f.buffer.contents ++ f.pendingRequests.flatMap (wanted mem f addrOf) ++
    memBytes mem b.1 (b.1 + b.2 - b.1).toNat = _
  rw [hs, BitVec.add_comm b.1, BitVec.add_sub_cancel]

/-- **`resumeFill`** asks for reads until it cannot, and in the blocks that its callbacks start. -/
theorem resumeFill_lands (next : List Block) (h : Inv mem cfg f addrOf before total) :
    ∃ f' started addrOf', f.resumeFill next = .ok (f', started) ∧
      Inv mem cfg f' addrOf' before (total ++ stream mem (started.map fun b => (b.1, b.2.toNat))) ∧ Saturated f' := by
  induction next generalizing f addrOf total with
  | nil =>
    obtain ⟨f', addrOf', hfill, hinv, hsat⟩ := fillLoop_lands f.freeRequests rfl h
    refine ⟨f', [], addrOf', ?_, ?_, hsat⟩
    · rw [resumeFill, h.running, if_neg (by decide), resumeFillTiming, hfill]
      rfl
    · rw [List.map_nil, stream, flatMap_nil, append_nil]
      exact hinv
  | cons b bs ih =>
    obtain ⟨f', addrOf', hfill, hinv, hsat⟩ := fillLoop_lands f.freeRequests rfl h
    rw [resumeFill, h.running, if_neg (by decide), resumeFillTiming, hfill, Run.ok_bind]
    split
    · rename_i hblock
      have hend : f'.atEndOfBlock = true := (Bool.and_eq_true_iff.1 hblock).2
      obtain ⟨f'', started, addrOf'', hrest, hinv', hsat'⟩ := ih (hinv.setBlock hend b)
      refine ⟨f'', b :: started, addrOf'', by rw [hrest]; rfl, ?_, hsat'⟩
      rw [List.map_cons, stream, List.flatMap_cons, ← append_assoc]
      exact hinv'
    · refine ⟨f', [], addrOf', rfl, ?_, hsat⟩
      rw [List.map_nil, stream, flatMap_nil, append_nil]
      exact hinv

/-! ## Completions -/

theorem Inv.popDone (h : Inv mem cfg f addrOf before total) {pending : List Nat}
    (hpend : f.pendingRequests = e :: pending) (hdone : (f.events e).done = true) : ∃ buffer, f.collect e = .ok buffer ∧
      Inv mem cfg { f with buffer, pendingRequests := pending, freeRequests := f.freeRequests ++ [e] } addrOf before total := by
  have hin : ∀ j ∈ pending, j ∈ f.pendingRequests := fun j hj => by rw [hpend]; exact List.mem_cons_of_mem _ hj
  have he : e ∈ f.pendingRequests := by rw [hpend]; exact List.mem_cons_self
  have hsum : f.sizePending = (f.events e).requestSize + (pending.map fun j => (f.events j).requestSize).sum := by
    rw [sizePending, hpend, List.map_cons, List.sum_cons]
  have hspace := h.space
  obtain ⟨buffer, hbuffer, hcontents, hmax⟩ : ∃ buffer, f.collect e = .ok buffer ∧
      buffer.contents = f.buffer.contents ++ wanted mem f addrOf e ∧ buffer.maxSize = f.buffer.maxSize := by
    by_cases hc : (f.events e).canceled = true
    · exact ⟨f.buffer, if_pos hc, by rw [wanted, if_pos hc, append_nil], rfl⟩
    · have hlen : ((f.events e).data.take (f.events e).requestSize).length = (f.events e).requestSize := by
        rw [List.length_take, h.data e]
        exact Nat.min_eq_left (h.sizes e he)
      obtain ⟨buffer, hwrite, hcontents, hmax⟩ := Fifo.write_eq f.buffer
        (by rw [hlen, h.capacity]; omega : f.buffer.used + _ ≤ f.buffer.maxSize)
      refine ⟨buffer, (if_neg hc).trans hwrite, ?_, hmax⟩
      rw [hcontents, h.arrived e he hdone, wanted, if_neg hc]
  have hlength : buffer.used ≤ f.buffer.used + (f.events e).requestSize := by
    rw [← CircleBuf.length_contents, ← CircleBuf.length_contents, hcontents, List.length_append, wanted]
    split
    · exact Nat.le_add_right _ _
    · rw [length_memBytes]
  refine ⟨buffer, hbuffer, ?_⟩
  constructor
  case fifoSize => exact h.fifoSize
  case maxReqSize => exact h.maxReqSize
  case running => exact h.running
  case capacity => exact hmax.trans h.capacity
  case data => exact h.data
  case sizes => exact fun j hj => h.sizes j (hin j hj)
  case perm =>
    have hp := h.perm
    rw [hpend] at hp
    change (f.freeRequests ++ [e] ++ pending).Perm _
    rw [append_assoc]
    exact hp
  case reads =>
    have hr := h.reads
    rw [hpend, List.filter_cons_of_neg (by rw [hdone]; decide)] at hr
    exact hr
  case asked => exact h.asked
  case arrived => exact fun j hj => h.arrived j (hin j hj)
  case space =>
    change buffer.used + (pending.map fun j => (f.events j).requestSize).sum ≤ f.fifoSize
    omega
  case stream =>
    have hs := h.stream
    rw [hpend, List.flatMap_cons] at hs
    change before ++ buffer.contents ++ pending.flatMap (wanted mem f addrOf) ++ _ = _
    rw [hcontents, ← hs]
    simp only [append_assoc]

theorem pendingLoop_lands (pending : List Nat) (hpend : f.pendingRequests = pending)
    (h : Inv mem cfg f addrOf before total) :
    ∃ f', f.pendingLoop pending = .ok f' ∧ Inv mem cfg f' addrOf before total := by
  induction pending generalizing f with
  | nil => exact ⟨f, rfl, h⟩
  | cons e pending ih =>
    rw [pendingLoop]
    split
    · rename_i hdone
      obtain ⟨buffer, hbuffer, hinv⟩ := h.popDone hpend hdone
      rw [hbuffer, Run.ok_bind]
      exact ih rfl hinv
    · exact ⟨f, rfl, h⟩

/-- The FIFO once the `n`-th read of the port has put its bytes into its event. -/
def arrive (mem : Addr → Byte) (f : DmaReadFifo) (n : Nat) (r : DmaRead) : DmaReadFifo :=
  { f with
    reads := f.reads.eraseIdx n
    events := Function.update f.events r.event { f.events r.event with
      data := copyAt (f.events r.event).data 0 (memBytes mem r.addr r.size), done := true } }

theorem Inv.mem_reads (h : Inv mem cfg f addrOf before total) (hr : r ∈ f.reads) :
    r.event ∈ f.pendingRequests ∧ (f.events r.event).done = false := by
  have hmem : r.event ∈ f.reads.map (·.event) := List.mem_map_of_mem hr
  rw [h.reads] at hmem
  obtain ⟨hin, hdone⟩ := List.mem_filter.1 hmem
  exact ⟨hin, by simpa using hdone⟩

theorem Inv.arrive (h : Inv mem cfg f addrOf before total) {n : Nat} (hr : f.reads[n]? = some r) :
    Inv mem cfg (arrive mem f n r) addrOf before total := by
  have hmem := List.mem_of_getElem? hr
  obtain ⟨hin, hdone⟩ := h.mem_reads hmem
  obtain ⟨haddr, hsize⟩ := h.asked r hmem
  have hfit : r.size ≤ (f.events r.event).data.length := by
    rw [h.data, hsize]
    exact h.sizes _ hin
  have hself : (DmaReadFifo.arrive mem f n r).events r.event = { f.events r.event with
      data := copyAt (f.events r.event).data 0 (memBytes mem r.addr r.size), done := true } := update_self _ _ _
  have hother : ∀ {j}, j ≠ r.event → (DmaReadFifo.arrive mem f n r).events j = f.events j := fun hj =>
    update_of_ne hj _ _
  have hlen : (copyAt (f.events r.event).data 0 (memBytes mem r.addr r.size)).length = f.maxReqSize.toNat := by
    rw [length_copyAt (by rw [length_memBytes]; omega), h.data]
  have hreq : ∀ j, ((DmaReadFifo.arrive mem f n r).events j).requestSize = (f.events j).requestSize := by
    intro j
    by_cases hj : j = r.event
    · rw [hj, hself]
    · rw [hother hj]
  have hcan : ∀ j, ((DmaReadFifo.arrive mem f n r).events j).canceled = (f.events j).canceled := by
    intro j
    by_cases hj : j = r.event
    · rw [hj, hself]
    · rw [hother hj]
  constructor
  case fifoSize => exact h.fifoSize
  case maxReqSize => exact h.maxReqSize
  case running => exact h.running
  case capacity => exact h.capacity
  case data =>
    intro j
    by_cases hj : j = r.event
    · rw [hj, hself]
      exact hlen
    · rw [hother hj]
      exact h.data j
  case sizes => exact fun j hj => by rw [hreq]; exact h.sizes j hj
  case perm => exact h.perm
  case reads =>
    have hnodup : (f.pendingRequests.filter fun j => !(f.events j).done).Nodup :=
      (List.nodup_append.1 h.nodup).2.1.filter _
    have hn : (f.pendingRequests.filter fun j => !(f.events j).done)[n]? = some r.event := by
      rw [← h.reads, List.getElem?_map, hr]
      rfl
    obtain ⟨hlt, hget⟩ := List.getElem?_eq_some_iff.1 hn
    change (f.reads.eraseIdx n).map DmaRead.event = f.pendingRequests.filter _
    rw [← List.eraseIdx_map, h.reads, ← hnodup.erase_getElem n hlt, hget, hnodup.erase_eq_filter, List.filter_filter]
    refine List.filter_congr fun j _ => ?_
    by_cases hj : j = r.event
    · rw [hj, hself]
      simp
    · rw [hother hj]
      simp [hj]
  case asked =>
    intro q hq
    rw [hreq]
    exact h.asked q (List.mem_of_mem_eraseIdx hq)
  case arrived =>
    intro j hj hd
    by_cases hjr : j = r.event
    · rw [hjr, hself]
      change (copyAt _ 0 (memBytes mem r.addr r.size)).take (f.events r.event).requestSize = _
      rw [← hsize, ← haddr, copyAt, List.take_zero, List.nil_append, List.take_append_of_le_length
        (by rw [length_memBytes]), List.take_of_length_le (by rw [length_memBytes])]
    · rw [hother hjr] at hd ⊢
      exact h.arrived j hj hd
  case space =>
    change f.buffer.used + (f.pendingRequests.map fun j => ((DmaReadFifo.arrive mem f n r).events j).requestSize).sum ≤ _
    simp only [hreq]
    exact h.space
  case stream =>
    have hwant : ∀ j ∈ f.pendingRequests, wanted mem (DmaReadFifo.arrive mem f n r) addrOf j = wanted mem f addrOf j :=
      fun j _ => by rw [wanted, wanted, hreq, hcan]
    change before ++ f.buffer.contents ++ f.pendingRequests.flatMap _ ++ memBytes mem f.nextAddr _ = _
    rw [List.flatMap_congr hwant]
    exact h.stream

theorem dmaDone_lands (next : List Block) (h : Inv mem cfg f addrOf before total) :
    ∃ f' started addrOf', f.dmaDone next = .ok (f', started, f.isActive && !f'.isActive) ∧
      Inv mem cfg f' addrOf' before (total ++ stream mem (started.map fun b => (b.1, b.2.toNat))) ∧ Saturated f' := by
  obtain ⟨f₁, hpending, hinv⟩ := pendingLoop_lands f.pendingRequests rfl h
  obtain ⟨f', started, addrOf', hfill, hinv', hsat⟩ := resumeFill_lands next hinv
  refine ⟨f', started, addrOf', ?_, hinv', hsat⟩
  rw [dmaDone, handlePending, hpending, Run.ok_bind, hfill]
  rfl

theorem process_eq (mem : Addr → Byte) (f : DmaReadFifo) (n : Nat) (r : DmaRead) (hdone : (f.events r.event).done = false)
    (next : List Block) :
    { f with
      reads := f.reads.eraseIdx n
      events := update f.events r.event { f.events r.event with
        data := copyAt (f.events r.event).data 0 (memBytes mem r.addr r.size) } }.process r.event next =
      (arrive mem f n r).dmaDone next := by
  rw [process]
  simp only [update_self, hdone, Bool.not_false, assertThat_true, Run.ok_bind, Function.update_idem]
  rfl

/-! ## The other calls -/

theorem Inv.stopFill (h : Inv mem cfg f addrOf before total) :
    Inv mem cfg f.stopFill addrOf before (total.take (before ++ f.buffer.contents).length) := by
  have hreq : ∀ j, (f.stopFill.events j).requestSize = (f.events j).requestSize := by
    intro j
    simp only [DmaReadFifo.stopFill]
    split <;> rfl
  have hdone : ∀ j, (f.stopFill.events j).done = (f.events j).done := by
    intro j
    simp only [DmaReadFifo.stopFill]
    split <;> rfl
  have hdata : ∀ j, (f.stopFill.events j).data = (f.events j).data := by
    intro j
    simp only [DmaReadFifo.stopFill]
    split <;> rfl
  have hcan : ∀ j ∈ f.pendingRequests, (f.stopFill.events j).canceled = true := by
    intro j hj
    simp only [DmaReadFifo.stopFill, if_pos hj]
    rfl
  constructor
  case fifoSize => exact h.fifoSize
  case maxReqSize => exact h.maxReqSize
  case running => exact h.running
  case capacity => exact h.capacity
  case data => exact fun j => by rw [hdata]; exact h.data j
  case sizes => exact fun j hj => by rw [hreq]; exact h.sizes j hj
  case perm => exact h.perm
  case reads =>
    simp only [hdone]
    exact h.reads
  case asked => exact fun r hr => by rw [hreq]; exact h.asked r hr
  case arrived =>
    intro j hj hd
    rw [hdone] at hd
    rw [hreq, hdata]
    exact h.arrived j hj hd
  case space =>
    change f.buffer.used + (f.pendingRequests.map fun j => (f.stopFill.events j).requestSize).sum ≤ _
    simp only [hreq]
    exact h.space
  case stream =>
    have hnil : f.pendingRequests.flatMap (wanted mem f.stopFill addrOf) = [] :=
      List.flatMap_eq_nil_iff.2 fun j hj => if_pos (hcan j hj)
    have hleft : memBytes mem f.endAddr (f.endAddr - f.endAddr).toNat = [] := by
      rw [BitVec.sub_self]
      rfl
    change before ++ f.buffer.contents ++ f.pendingRequests.flatMap (wanted mem f.stopFill addrOf) ++
      memBytes mem f.endAddr (f.endAddr - f.endAddr).toNat = _
    rw [hnil, hleft, append_nil, append_nil, ← h.stream, append_assoc, List.take_left]

theorem tryGet_lands (len : Nat) (next : List Block) (h : Inv mem cfg f addrOf before total) (hsat : Saturated f) :
    ∃ f' started addrOf' out, f.tryGet len next = .ok (f', started, out) ∧
      Inv mem cfg f' addrOf' (before ++ out.getD []) (total ++ stream mem (started.map fun b => (b.1, b.2.toNat))) ∧
      Saturated f' := by
  rw [tryGet]
  split
  · rename_i hlen
    obtain ⟨buffer, hread, hcontents, hmax⟩ := f.buffer.read_eq hlen
    have hused : buffer.used ≤ f.buffer.used := by
      rw [← CircleBuf.length_contents, ← CircleBuf.length_contents, hcontents, List.length_drop]
      exact Nat.sub_le _ _
    have hinv : Inv mem cfg { f with buffer } addrOf (before ++ f.buffer.contents.take len) total := by
      refine { h with capacity := hmax.trans h.capacity, space := ?_, stream := ?_ }
      · exact Nat.le_trans (Nat.add_le_add_right hused _) h.space
      · change before ++ f.buffer.contents.take len ++ buffer.contents ++ f.pendingRequests.flatMap (wanted mem f addrOf) ++ _ = _
        rw [hcontents, append_assoc before, List.take_append_drop]
        exact h.stream
    obtain ⟨f', started, addrOf', hfill, hinv', hsat'⟩ := resumeFill_lands next hinv
    refine ⟨f', started, addrOf', some (f.buffer.contents.take len), ?_, hinv', hsat'⟩
    rw [hread, Run.ok_bind]
    simp only
    rw [hfill]
    rfl
  · refine ⟨f, [], addrOf, none, rfl, ?_, hsat⟩
    rw [Option.getD_none, append_nil, List.map_nil, stream, flatMap_nil, append_nil]
    exact h

/-! ## Runs -/

/-- What the callers may do: start a block at the end of one, and complete a read that was asked. -/
def Enabled (s : System) : Event → Prop
  | .startFill _ _ => s.fifo.atEndOfBlock = true
  | .stopFill => True
  | .tryGet _ _ => True
  | .complete n _ => n < s.fifo.reads.length

inductive Reach (mem : Addr → Byte) (cfg : Config) : System → Prop
  | create : Reach mem cfg (.create cfg.size cfg.maxReqSize cfg.maxPending)
  | step {s s' : System} {e : Event} : Reach mem cfg s → Enabled s e → s.step mem e = .ok s' → Reach mem cfg s'

def Event.completes : Event → Bool
  | .complete _ _ => true
  | _ => false

def Good (mem : Addr → Byte) (cfg : Config) (s : System) : Prop :=
  (∃ addrOf, Inv mem cfg s.fifo addrOf s.delivered (stream mem s.blocks)) ∧ Saturated s.fifo

theorem good_create (mem : Addr → Byte) (cfg : Config) :
    Good mem cfg (.create cfg.size cfg.maxReqSize cfg.maxPending) := by
  have hreq : (cfg.maxReqSize.setWidth 64).toNat = cfg.maxReqSize.toNat := by
    rw [BitVec.toNat_setWidth]
    exact Nat.mod_eq_of_lt (Nat.lt_trans cfg.maxReqSize.isLt (by decide))
  refine ⟨⟨fun _ => 0, rfl, hreq, rfl, rfl, ?_, ?_, ?_, rfl, ?_, ?_, Nat.zero_le _, ?_⟩, .inl rfl⟩
  · intro e
    exact List.length_replicate.trans hreq.symm
  · simp [System.create, DmaReadFifo.create]
  · simp [System.create, DmaReadFifo.create]
  · simp [System.create, DmaReadFifo.create]
  · simp [System.create, DmaReadFifo.create]
  · simp [System.create, DmaReadFifo.create, CircleBuf.contents_create, stream]

theorem stream_starts (mem : Addr → Byte) (s : System) (started : List Block) :
    stream mem (s.starts started) = stream mem s.blocks ++ stream mem (started.map fun b => (b.1, b.2.toNat)) :=
  stream_append mem _ _

theorem step_lands (h : Good mem cfg s) {e : Event} (he : Enabled s e) : ∃ s', s.step mem e = .ok s' ∧ Good mem cfg s' ∧
      s'.idles = s.idles + (e.completes && s.fifo.isActive && !s'.fifo.isActive).toNat := by
  obtain ⟨⟨addrOf, hinv⟩, hsat⟩ := h
  cases e with
  | startFill b next =>
    obtain ⟨f', started, addrOf', hfill, hinv', hsat'⟩ := resumeFill_lands next (hinv.setBlock he b)
    refine ⟨{ s with fifo := f', blocks := s.starts (b :: started) }, ?_, ⟨⟨addrOf', ?_⟩, hsat'⟩, rfl⟩
    · have hend : s.fifo.atEndOfBlock = true := he
      rw [System.step, startFill, hend, assertThat_true, Run.ok_bind, hfill]
      rfl
    change Inv mem cfg f' addrOf' s.delivered (stream mem (s.starts (b :: started)))
    rw [stream_starts, List.map_cons, stream, stream, List.flatMap_cons, ← append_assoc]
    exact hinv'
  | stopFill =>
    refine ⟨_, rfl, ⟨⟨addrOf, ?_⟩, .inl (decide_eq_true rfl)⟩, rfl⟩
    change Inv mem cfg s.fifo.stopFill addrOf s.delivered (stream mem (cutTo s.received.length s.blocks))
    rw [stream_cutTo]
    exact hinv.stopFill
  | tryGet len next =>
    obtain ⟨f', started, addrOf', out, hget, hinv', hsat'⟩ := tryGet_lands len next hinv hsat
    refine ⟨{ s with fifo := f', blocks := s.starts started, delivered := s.delivered ++ out.getD [] }, ?_,
      ⟨⟨addrOf', ?_⟩, hsat'⟩, rfl⟩
    · rw [System.step, hget]
      rfl
    change Inv mem cfg f' addrOf' (s.delivered ++ out.getD []) (stream mem (s.starts started))
    rw [stream_starts]
    exact hinv'
  | complete n next =>
    have hr : s.fifo.reads[n]? = some _ := List.getElem?_eq_getElem he
    generalize s.fifo.reads[n] = r at hr
    have hdone := (hinv.mem_reads (List.mem_of_getElem? hr)).2
    obtain ⟨f', started, addrOf', hdmaDone, hinv', hsat'⟩ := dmaDone_lands next (hinv.arrive hr)
    refine ⟨{ s with
      fifo := f', blocks := s.starts started, idles := s.idles + (s.fifo.isActive && !f'.isActive).toNat }, ?_,
      ⟨⟨addrOf', ?_⟩, hsat'⟩, rfl⟩
    · rw [System.step, hr]
      simp only
      rw [process_eq mem s.fifo n r hdone, hdmaDone]
      rfl
    change Inv mem cfg f' addrOf' s.delivered (stream mem (s.starts started))
    rw [stream_starts]
    exact hinv'

theorem Reach.good (h : Reach mem cfg s) : Good mem cfg s := by
  induction h with
  | create => exact good_create mem cfg
  | step _ he hstep ih =>
    obtain ⟨s'', hstep', hgood, -⟩ := step_lands ih he
    obtain rfl := Except.ok.inj (hstep.symm.trans hstep')
    exact hgood

structure Streams (mem : Addr → Byte) (cfg : Config) (s : System) : Prop where
  /-- The bytes received are the first of the stream of the blocks. -/
  inOrder : s.received <+: stream mem s.blocks
  whole : s.fifo.isActive = false → s.received = stream mem s.blocks
  fits : s.fifo.buffer.used + s.fifo.sizePending ≤ cfg.size
  events : (s.fifo.freeRequests ++ s.fifo.pendingRequests).Perm (List.range cfg.maxPending)
  /-- A reader that has emptied the FIFO, with no read pending, has got everything. -/
  progress : 0 < cfg.maxPending → cfg.maxReqSize.toNat ≤ cfg.size → s.fifo.pendingRequests = [] →
    s.fifo.buffer.used = 0 → s.delivered = stream mem s.blocks

theorem Inv.received_eq (h : Inv mem cfg f addrOf before total) (hpend : f.pendingRequests = [])
    (hend : f.atEndOfBlock = true) : before ++ f.buffer.contents = total := by
  have heq : f.nextAddr = f.endAddr := of_decide_eq_true hend
  have hs := h.stream
  rw [hpend, heq, BitVec.sub_self] at hs
  simpa using hs

theorem Good.streams (h : Good mem cfg s) : Streams mem cfg s := by
  obtain ⟨⟨addrOf, hinv⟩, hsat⟩ := h
  constructor
  case inOrder => exact ⟨_, (append_assoc _ _ _).symm.trans hinv.stream⟩
  case whole =>
    intro hidle
    simp only [isActive, Bool.not_eq_false', Bool.and_eq_true, List.isEmpty_iff] at hidle
    exact hinv.received_eq hidle.1 hidle.2
  case fits => exact hinv.fifoSize ▸ hinv.space
  case events => exact hinv.perm
  case progress =>
    intro hsome hmax hpend hused
    have hfree : s.fifo.freeRequests ≠ [] := by
      intro hnil
      have hlen := hinv.perm.length_eq
      rw [hnil, hpend, append_nil, List.length_nil, List.length_range] at hlen
      omega
    have hroom : ¬ s.fifo.fifoSize < s.fifo.buffer.used + s.fifo.sizePending + s.fifo.reqSize := by
      have hreq : s.fifo.reqSize ≤ s.fifo.maxReqSize.toNat := Nat.min_le_left _ _
      have hzero : s.fifo.sizePending = 0 := by
        rw [sizePending, hpend]
        rfl
      rw [hinv.maxReqSize] at hreq
      rw [hinv.fifoSize]
      omega
    have hend := hsat.resolve_right fun hor => hor.elim hfree hroom
    have hall := hinv.received_eq hpend hend
    rw [List.eq_nil_of_length_eq_zero ((CircleBuf.length_contents _).trans hused), append_nil] at hall
    exact hall

end Gem5.DmaReadFifo
