import Gem5Cxl.SnoopRetry
/-!
# SnoopSound — the filter knows every port that may have a line

A history lists the finished calls, newest first, each with the ports it had snooped.  From it alone: the ports with a
request outstanding for a line (`outstanding`), those that were brought the line and have not lost it since (`received`),
and both together (`tracked`).  What counts as losing a line is a parameter: `loses` names evictions, invalidating snoops
and transfers that leave no sharer; `gives` adds a port's own invalidating maintenance request, on whose response the
filter forgets the port.
-/
namespace Gem5
namespace SnoopFilter

open Bool (and_eq_true false_eq_true not_eq_true' or_eq_true)
open Run (bind_eq_ok)

/-- The calls the crossbar makes.  A request is looked up and finished before the next call; `updateSnoopForward` reads
neither of its ports. -/
inductive Call (c : Config) where
  | request (pkt : SnoopPacket) (port : c.Port) (willRetry : Bool)
  | response (pkt : SnoopPacket) (port : c.Port)
  | snoop (pkt : SnoopPacket)
  | snoopResponse (pkt : SnoopPacket) (rspPort reqPort : c.Port)
  | snoopForward (pkt : SnoopPacket)

variable {c : Config}

def Call.pkt : Call c → SnoopPacket
  | .request pkt _ _ | .response pkt _ | .snoop pkt | .snoopResponse pkt _ _ | .snoopForward pkt => pkt

def Call.line (call : Call c) : Addr := c.lineAddr call.pkt

def exec (f : SnoopFilter) : Call c → Except Failure (SnoopFilter × List c.Port)
  | .request pkt port willRetry => do
    let (f, snooped, _) ← lookupRequest c f pkt port
    let f ← finishRequest c f willRetry pkt.addr pkt.isSecure
    return (f, snooped)
  | .response pkt port => (updateResponse c f pkt port).map (·, [])
  | .snoop pkt => (lookupSnoop c f pkt).map fun (f, snooped, _) => (f, snooped)
  | .snoopResponse pkt rspPort reqPort => (updateSnoopResponse c f pkt rspPort reqPort).map (·, [])
  | .snoopForward pkt => (updateSnoopForward c f pkt).map (·, [])

structure Event (c : Config) where
  call : Call c
  snooped : List c.Port

inductive Runs : List (Event c) → SnoopFilter → Prop where
  | nil : Runs [] {}
  | cons {h : List (Event c)} {f g : SnoopFilter} {call : Call c} {snooped : List c.Port} :
      Runs h f → exec f call = .ok (g, snooped) → Runs (⟨call, snooped⟩ :: h) g

/-! ## Who may have a line, from the history alone -/

/-- The call accepts a request of port `p` for line `k`, cacheable and from a cache, whose response will come back
through the crossbar. -/
def Call.accepts (k : Addr) (p : c.Port) : Call c → Bool
  | .request pkt port willRetry => c.lineAddr pkt == k && port == p && !willRetry && allocates c pkt port &&
      pkt.needsResponse && !pkt.cacheResponding
  | _ => false

def Call.answers (k : Addr) (p : c.Port) : Call c → Bool
  | .response pkt port | .snoopResponse pkt _ port => c.lineAddr pkt == k && port == p && !pkt.isUncacheable
  | _ => false

/-- A response brings the line, unless it ends a maintenance operation. -/
def Call.brings : Call c → Bool
  | .response pkt _ => !pkt.isCacheMaintenance
  | .snoopResponse .. => true
  | _ => false

/-- Port `p` evicts line `k` with no copy left above it, or is the target of an invalidating snoop for it, or the line is
passed on with no sharers. -/
def loses (e : Event c) (k : Addr) (p : c.Port) : Bool :=
  match e.call with
  | .request pkt port willRetry => c.lineAddr pkt == k &&
      (port == p && !willRetry && pkt.cmd.isEviction && !pkt.isBlockCached || pkt.isInvalidate && e.snooped.contains p)
  | .snoop pkt => c.lineAddr pkt == k && pkt.isInvalidate && e.snooped.contains p
  | .snoopResponse pkt _ port => c.lineAddr pkt == k && !pkt.isUncacheable && c.isSnooping port && !pkt.hasSharers
  | .snoopForward pkt => c.lineAddr pkt == k && !pkt.hasSharers
  | .response .. => false

def gives (e : Event c) (k : Addr) (p : c.Port) : Bool :=
  loses e k p || match e.call with
    | .response pkt port => c.lineAddr pkt == k && port == p && pkt.isCacheMaintenance && pkt.isInvalidate
    | _ => false

def outstanding (k : Addr) (p : c.Port) : List (Event c) → Bool
  | [] => false
  | e :: h => e.call.accepts k p || outstanding k p h && !e.call.answers k p

def received (lose : Event c → Addr → c.Port → Bool) (k : Addr) (p : c.Port) : List (Event c) → Bool
  | [] => false
  | e :: h => outstanding k p h && e.call.answers k p && e.call.brings || received lose k p h && !lose e k p

/-- **The ports that may have a line.** -/
def tracked (lose : Event c → Addr → c.Port → Bool) (k : Addr) (p : c.Port) (h : List (Event c)) : Bool :=
  outstanding k p h || received lose k p h

/-! ## What each call does to the entry of its line -/

def entry (f : SnoopFilter) (k : Addr) : SnoopItem := (f.cachedLocations.lookup k).getD {}

/-- **The effect of a call that returned**, on the entry of its line. -/
def Effect (call : Call c) (old new : SnoopItem) (snooped : List c.Port) : Prop :=
  match call with
  | .request pkt port willRetry =>
    snooped = c.maskToPortList ((old.holder ||| old.requested) &&& ~~~c.portToMask port) ∧
      (new = old ∧ (willRetry = true ∨ allocates c pkt port = false) ∨
        willRetry = false ∧ allocates c pkt port = true ∧ recordRequest c old pkt port = .ok new)
  | .response pkt port =>
    new = old ∧ (pkt.isUncacheable = true ∨ c.isSnooping port = false ∨ old = {}) ∨
      pkt.isUncacheable = false ∧ new.requested = old.requested &&& ~~~c.portToMask port ∧
        new.holder = if pkt.isCacheMaintenance then
          (if pkt.isInvalidate then old.holder &&& ~~~c.portToMask port else old.holder) else old.holder ||| c.portToMask port
  | .snoop pkt =>
    snooped = c.maskToPortList (old.holder ||| old.requested) ∧
      (new = old ∨ pkt.isInvalidate = true ∧ old.requested = 0 ∧ new = { old with holder := 0 })
  | .snoopResponse pkt _ port =>
    new = old ∧ (pkt.isUncacheable = true ∨ c.isSnooping port = false) ∨
      pkt.isUncacheable = false ∧ c.isSnooping port = true ∧ new.requested = old.requested &&& ~~~c.portToMask port ∧
        new.holder = (if !pkt.hasSharers then 0 else old.holder) ||| c.portToMask port
  | .snoopForward pkt => new = old ∨ pkt.hasSharers = false ∧ new = { old with holder := 0 }

def Writes (m m' : SnoopFilterCache) (k : Addr) (item : SnoopItem) : Prop :=
  ∀ k', m'.lookup k' = if k' = k then (if item.isNull then none else some item) else m.lookup k'

theorem writes_eraseIfNullEntry_insert (m : SnoopFilterCache) (k : Addr) (item : SnoopItem) :
    Writes m (eraseIfNullEntry (m.insert k item) k) k item := lookup_eraseIfNullEntry_insert m k item

variable {item : SnoopItem} {m : SnoopFilterCache} {k : Addr} {f g : SnoopFilter} {call : Call c} {h : List (Event c)}

theorem writes_insert (m : SnoopFilterCache) (k : Addr) (h : item.isNull = false) :
    Writes m (m.insert k item) k item := by
  intro k'
  rw [h]
  by_cases hk : k' = k
  · rw [if_pos hk, hk, Finmap.lookup_insert, if_neg (by decide)]
  · rw [if_neg hk, Finmap.lookup_insert_of_ne m hk]

theorem NoNullEntry.writes_self (h : NoNullEntry m) (k : Addr) : Writes m m k ((m.lookup k).getD {}) := by
  intro k'
  by_cases hk : k' = k
  · rw [if_pos hk, hk]
    cases hl : m.lookup k with
    | none => rw [Option.getD_none, isNull_empty, if_pos rfl]
    | some item => rw [Option.getD_some, h k item hl, if_neg (by decide)]
  · rw [if_neg hk]

theorem NoNullEntry.writes {m' : SnoopFilterCache} (h : NoNullEntry m) (hw : Writes m m' k item) : NoNullEntry m' := by
  intro k' item' hl
  rw [hw k'] at hl
  split at hl
  · split at hl
    · cases hl
    · rename_i hn
      cases hl
      simpa using hn
  · exact h k' item' hl

section Effects

variable {f g : SnoopFilter} {pkt : SnoopPacket}

variable {port : c.Port} {snooped : List c.Port}

/-- The call has its effect on the entry of line `k`, and that is all it does. -/
def Acts (f g : SnoopFilter) (k : Addr) (call : Call c) (snooped : List c.Port) : Prop :=
  ∃ item, Effect call (entry f k) item snooped ∧ Writes f.cachedLocations g.cachedLocations k item

theorem request_effect {willRetry : Bool} (hnull : NoNullEntry f.cachedLocations)
    (h : exec f (.request pkt port willRetry) = .ok (g, snooped)) :
    Acts f g (c.lineAddr pkt) (.request pkt port willRetry) snooped := by
  obtain ⟨⟨f₁, l, lat⟩, hlook, h⟩ := bind_eq_ok.1 h
  obtain ⟨f₂, hfin, h⟩ := bind_eq_ok.1 h
  cases h
  rcases lookupRequest_cases hlook with ⟨hl, ha, hm, hit, hsn⟩ | ⟨item, hmark, hm, hr, hsn⟩
  · have hg : g = f₁ := by
      rw [finishRequest, hit] at hfin
      exact (Except.ok.inj hfin).symm
    have hentry : entry f (c.lineAddr pkt) = {} := by rw [entry, hl, Option.getD_none]
    refine ⟨entry f (c.lineAddr pkt), ⟨?_, .inl ⟨rfl, .inr ha⟩⟩, ?_⟩
    · dsimp only at hsn
      simp [hsn, hentry]
    · rw [hg, hm]
      exact hnull.writes_self _
  · rw [finishRequest_eq willRetry hm hr] at hfin
    have hg := Except.ok.inj hfin
    subst hg
    refine ⟨if willRetry then entryOf c f pkt else item, ⟨hsn, ?_⟩, writes_eraseIfNullEntry_insert _ _ _⟩
    cases willRetry with
    | true => exact .inl ⟨rfl, .inl rfl⟩
    | false =>
      rcases hmark with ⟨ha, rfl⟩ | ⟨ha, hrec⟩
      · exact .inl ⟨rfl, .inr ha⟩
      · exact .inr ⟨rfl, ha, hrec⟩

theorem response_effect (hnull : NoNullEntry f.cachedLocations) (h : updateResponse c f pkt port = .ok g) :
    Acts f g (c.lineAddr pkt) (.response pkt port) [] := by
  rw [updateResponse] at h
  obtain ⟨-, -, h⟩ := bind_eq_ok.1 h
  by_cases hskip : (pkt.isUncacheable || !c.isSnooping port) = true
  · rw [if_pos hskip] at h
    cases h
    refine ⟨_, .inl ⟨rfl, ?_⟩, hnull.writes_self _⟩
    simp only [or_eq_true, not_eq_true'] at hskip
    exact hskip.imp_right .inl
  · rw [if_neg hskip] at h
    have hcache : pkt.isUncacheable = false := by
      simp only [or_eq_true, not_or, Bool.not_eq_true] at hskip
      exact hskip.1
    cases hl : f.cachedLocations.lookup (c.lineAddr pkt) with
    | none =>
      simp only [hl] at h
      cases h
      refine ⟨_, .inl ⟨rfl, .inr (.inr ?_)⟩, hnull.writes_self _⟩
      rw [entry, hl, Option.getD_none]
    | some old =>
      have hold : entry f (c.lineAddr pkt) = old := by rw [entry, hl, Option.getD_some]
      simp only [hl] at h
      obtain ⟨-, -, h⟩ := bind_eq_ok.1 h
      rw [Acts, hold]
      cases hmaint : pkt.isCacheMaintenance with
      | true =>
        simp only [hmaint, if_true] at h
        cases h
        exact ⟨_, .inr ⟨hcache, rfl, by simp only [hmaint, if_true]⟩, writes_eraseIfNullEntry_insert _ _ _⟩
      | false =>
        simp only [hmaint, false_eq_true, if_false] at h
        obtain ⟨_, hsome, h⟩ := bind_eq_ok.1 h
        cases h
        refine ⟨_, .inr ⟨hcache, rfl, by simp only [hmaint, false_eq_true, if_false]⟩, writes_insert _ _ ?_⟩
        simpa using hsome

theorem snoop_effect {lat : Nat} (hnull : NoNullEntry f.cachedLocations)
    (h : lookupSnoop c f pkt = .ok (g, snooped, lat)) : Acts f g (c.lineAddr pkt) (.snoop pkt) snooped := by
  rw [lookupSnoop] at h
  obtain ⟨-, -, h⟩ := bind_eq_ok.1 h
  cases hl : f.cachedLocations.lookup (c.lineAddr pkt) with
  | none =>
    have hold : entry f (c.lineAddr pkt) = {} := by rw [entry, hl, Option.getD_none]
    simp only [hl] at h
    obtain ⟨-, -, h⟩ := bind_eq_ok.1 h
    cases h
    exact ⟨_, ⟨by simp [hold], .inl rfl⟩, hnull.writes_self _⟩
  | some old =>
    have hold : entry f (c.lineAddr pkt) = old := by rw [entry, hl, Option.getD_some]
    simp only [hl] at h
    obtain ⟨w, -, h⟩ := bind_eq_ok.1 h
    obtain ⟨-, -, h⟩ := bind_eq_ok.1 h
    by_cases hinv : (pkt.isInvalidate && old.requested == 0) = true
    · rw [if_pos hinv] at h
      cases h
      simp only [and_eq_true, beq_iff_eq] at hinv
      rw [Acts, hold]
      exact ⟨_, ⟨rfl, .inr ⟨hinv.1, hinv.2, rfl⟩⟩, writes_eraseIfNullEntry_insert _ _ _⟩
    · rw [if_neg hinv] at h
      cases h
      exact ⟨_, ⟨by rw [hold], .inl rfl⟩, hnull.writes_self _⟩

theorem snoopResponse_effect {rspPort reqPort : c.Port} (hnull : NoNullEntry f.cachedLocations)
    (h : updateSnoopResponse c f pkt rspPort reqPort = .ok g) :
    Acts f g (c.lineAddr pkt) (.snoopResponse pkt rspPort reqPort) [] := by
  rw [updateSnoopResponse] at h
  obtain ⟨-, -, h⟩ := bind_eq_ok.1 h
  obtain ⟨-, -, h⟩ := bind_eq_ok.1 h
  by_cases hskip : (pkt.isUncacheable || !c.isSnooping reqPort) = true
  · rw [if_pos hskip] at h
    cases h
    refine ⟨_, .inl ⟨rfl, ?_⟩, hnull.writes_self _⟩
    simpa only [or_eq_true, not_eq_true'] using hskip
  · rw [if_neg hskip] at h
    simp only [or_eq_true, not_eq_true', not_or, Bool.not_eq_true, Bool.not_eq_false] at hskip
    obtain ⟨-, -, h⟩ := bind_eq_ok.1 h
    obtain ⟨-, -, h⟩ := bind_eq_ok.1 h
    obtain ⟨-, -, h⟩ := bind_eq_ok.1 h
    obtain ⟨_, hsome, h⟩ := bind_eq_ok.1 h
    cases h
    refine ⟨_, .inr ⟨hskip.1, hskip.2, rfl, rfl⟩, writes_insert _ _ ?_⟩
    simpa using hsome

theorem snoopForward_effect (hnull : NoNullEntry f.cachedLocations) (h : updateSnoopForward c f pkt = .ok g) :
    Acts (c := c) f g (c.lineAddr pkt) (.snoopForward pkt) [] := by
  rw [updateSnoopForward] at h
  obtain ⟨-, -, h⟩ := bind_eq_ok.1 h
  obtain ⟨-, -, h⟩ := bind_eq_ok.1 h
  cases hl : f.cachedLocations.lookup (c.lineAddr pkt) with
  | none =>
    simp only [hl] at h
    cases h
    exact ⟨_, .inl rfl, hnull.writes_self _⟩
  | some old =>
    have hold : entry f (c.lineAddr pkt) = old := by rw [entry, hl, Option.getD_some]
    simp only [hl] at h
    cases hs : pkt.hasSharers with
    | true =>
      simp only [hs, Bool.not_true, false_eq_true, if_false] at h
      cases h
      exact ⟨_, .inl rfl, hnull.writes_self _⟩
    | false =>
      simp only [hs, Bool.not_false, if_true] at h
      cases h
      rw [Acts, hold]
      exact ⟨_, .inr ⟨hs, rfl⟩, writes_eraseIfNullEntry_insert _ _ _⟩

theorem exec_effect {call : Call c} (hnull : NoNullEntry f.cachedLocations) (h : exec f call = .ok (g, snooped)) :
    Acts f g call.line call snooped := by
  cases call with
  | request pkt port willRetry => exact request_effect hnull h
  | response pkt port =>
    obtain ⟨g', hg, he⟩ := Run.map_eq_ok.1 h
    cases he
    exact response_effect hnull hg
  | snoop pkt =>
    obtain ⟨⟨g', l, lat⟩, hg, he⟩ := Run.map_eq_ok.1 h
    cases he
    exact snoop_effect hnull hg
  | snoopResponse pkt rspPort reqPort =>
    obtain ⟨g', hg, he⟩ := Run.map_eq_ok.1 h
    cases he
    exact snoopResponse_effect hnull hg
  | snoopForward pkt =>
    obtain ⟨g', hg, he⟩ := Run.map_eq_ok.1 h
    cases he
    exact snoopForward_effect hnull hg

end Effects

/-- **What an allocating request does to its entry.** -/
theorem recordRequest_cases {old new : SnoopItem} {pkt : SnoopPacket} {port : c.Port}
    (h : recordRequest c old pkt port = .ok new) :
    pkt.needsResponse = true ∧ pkt.cacheResponding = false ∧
        new = { old with requested := old.requested ||| c.portToMask port } ∨
      new = old ∧ (pkt.needsResponse = true → pkt.cacheResponding = true) ∨
      pkt.needsResponse = false ∧ pkt.cmd.isEviction = true ∧ pkt.isBlockCached = false ∧
        new = { old with holder := old.holder &&& ~~~c.portToMask port } := by
  rw [recordRequest] at h
  cases hn : pkt.needsResponse with
  | true =>
    simp only [hn, if_true] at h
    cases hr : pkt.cacheResponding with
    | false =>
      simp only [hr, Bool.not_false, if_true] at h
      obtain ⟨-, -, h⟩ := bind_eq_ok.1 h
      cases h
      exact .inl ⟨rfl, rfl, rfl⟩
    | true =>
      simp only [hr, Bool.not_true, false_eq_true, if_false] at h
      obtain ⟨-, -, h⟩ := bind_eq_ok.1 h
      cases h
      exact .inr (.inl ⟨rfl, fun _ => rfl⟩)
  | false =>
    simp only [hn, false_eq_true, if_false] at h
    obtain ⟨_, hev, h⟩ := bind_eq_ok.1 h
    obtain ⟨-, -, h⟩ := bind_eq_ok.1 h
    cases hb : pkt.isBlockCached with
    | true =>
      simp only [hb, Bool.not_true, false_eq_true, if_false] at h
      cases h
      exact .inr (.inl ⟨rfl, fun h => nomatch h⟩)
    | false =>
      simp only [hb, Bool.not_false, if_true] at h
      cases h
      exact .inr (.inr ⟨rfl, assertThat_eq_ok.1 hev, rfl, rfl⟩)

/-! ## The invariant -/

/-- **The filter covers a history.** -/
structure Covers (h : List (Event c)) (f : SnoopFilter) : Prop where
  noNull : NoNullEntry f.cachedLocations
  out : ∀ k p, outstanding k p h = true → c.has (entry f k).requested p = true
  rcv : ∀ k p, received gives k p h = true → c.has (entry f k).holder p = true

theorem masks_of_isNull (h : item.isNull = true) : item = {} := by
  obtain ⟨requested, holder⟩ := item
  simp only [SnoopItem.isNull, beq_iff_eq] at h
  obtain ⟨rfl, rfl⟩ := BitVec.or_eq_zero_iff.1 h
  rfl

theorem entry_of_writes (hw : Writes f.cachedLocations g.cachedLocations k item) (k' : Addr) :
    entry g k' = if k' = k then item else entry f k' := by
  rw [entry, hw k']
  by_cases hk : k' = k
  · rw [if_pos hk, if_pos hk]
    by_cases hn : item.isNull = true
    · rw [if_pos hn, Option.getD_none, masks_of_isNull hn]
    · rw [if_neg hn, Option.getD_some]
  · rw [if_neg hk, if_neg hk, entry]

theorem other_line (hk : k ≠ call.line) (p : c.Port) (snooped : List c.Port) :
    call.accepts k p = false ∧ call.answers k p = false ∧ gives ⟨call, snooped⟩ k p = false := by
  have hne : (c.lineAddr call.pkt == k) = false := beq_eq_false_iff_ne.2 (Ne.symm hk)
  cases call <;> simp_all [Call.accepts, Call.answers, gives, loses, Call.pkt]

section Step

variable {h : List (Event c)} {old new : SnoopItem} {call : Call c} {snooped : List c.Port} {p : c.Port}

variable (he : Effect call old new snooped) (hout : outstanding call.line p h = true → c.has old.requested p = true)
include he hout

theorem requested_step (hnew : outstanding call.line p (⟨call, snooped⟩ :: h) = true) : c.has new.requested p = true := by
  simp only [outstanding, or_eq_true, and_eq_true, not_eq_true'] at hnew
  cases call with
  | request pkt port willRetry =>
    obtain ⟨-, ⟨rfl, hw⟩ | ⟨-, ha, hrec⟩⟩ := he
    · rcases hnew with hacc | ⟨hold, -⟩
      · simp only [Call.accepts, and_eq_true, not_eq_true'] at hacc
        rcases hw with hw | hw <;> simp_all
      · exact hout hold
    · rcases recordRequest_cases hrec with ⟨-, -, rfl⟩ | ⟨rfl, hcr⟩ | ⟨hn, -, -, rfl⟩
      · rcases hnew with hacc | ⟨hold, -⟩
        · simp only [Call.accepts, allocates, and_eq_true, beq_iff_eq] at hacc
          obtain ⟨⟨⟨⟨⟨-, rfl⟩, -⟩, ⟨-, hs⟩, -⟩, -⟩, -⟩ := hacc
          simp [hs]
        · simp [hout hold]
      · rcases hnew with hacc | ⟨hold, -⟩
        · simp only [Call.accepts, and_eq_true, not_eq_true'] at hacc
          simp_all
        · exact hout hold
      · rcases hnew with hacc | ⟨hold, -⟩
        · simp only [Call.accepts, and_eq_true] at hacc
          simp_all
        · exact hout hold
  | response pkt port =>
    obtain ⟨hold, hans⟩ := hnew.resolve_left (by simp [Call.accepts])
    rcases he with ⟨rfl, -⟩ | ⟨hu, hreq, -⟩
    · exact hout hold
    · have hne : port ≠ p := by
        rintro rfl
        simp [Call.answers, Call.line, Call.pkt, hu] at hans
      rw [hreq, c.has_clear, hout hold, decide_eq_true hne, Bool.and_true]
  | snoop pkt =>
    obtain ⟨hold, -⟩ := hnew.resolve_left (by simp [Call.accepts])
    obtain ⟨-, rfl | ⟨-, -, rfl⟩⟩ := he
    · exact hout hold
    · exact hout hold
  | snoopResponse pkt rspPort port =>
    obtain ⟨hold, hans⟩ := hnew.resolve_left (by simp [Call.accepts])
    rcases he with ⟨rfl, -⟩ | ⟨hu, -, hreq, -⟩
    · exact hout hold
    · have hne : port ≠ p := by
        rintro rfl
        simp [Call.answers, Call.line, Call.pkt, hu] at hans
      rw [hreq, c.has_clear, hout hold, decide_eq_true hne, Bool.and_true]
  | snoopForward pkt =>
    obtain ⟨hold, -⟩ := hnew.resolve_left (by simp [Call.accepts])
    rcases he with rfl | ⟨-, rfl⟩
    · exact hout hold
    · exact hout hold

theorem holder_step (hrcv : received gives call.line p h = true → c.has old.holder p = true)
    (hnew : received gives call.line p (⟨call, snooped⟩ :: h) = true) : c.has new.holder p = true := by
  simp only [received, or_eq_true, and_eq_true, not_eq_true'] at hnew
  cases call with
  | request pkt port willRetry =>
    obtain ⟨hold, hgive⟩ := hnew.resolve_left (by simp [Call.answers])
    obtain ⟨-, ⟨rfl, -⟩ | ⟨hw, -, hrec⟩⟩ := he
    · exact hrcv hold
    · rcases recordRequest_cases hrec with ⟨-, -, rfl⟩ | ⟨rfl, -⟩ | ⟨-, hev, hb, rfl⟩
      · exact hrcv hold
      · exact hrcv hold
      · have hne : port ≠ p := by
          rintro rfl
          simp [gives, loses, Call.line, Call.pkt, hw, hev, hb] at hgive
        rw [c.has_clear, hrcv hold, decide_eq_true hne, Bool.and_true]
  | response pkt port =>
    rcases hnew with ⟨⟨hold, hans⟩, hbr⟩ | ⟨hold, hgive⟩
    · simp only [Call.answers, and_eq_true, beq_iff_eq, not_eq_true'] at hans
      obtain ⟨⟨-, rfl⟩, hu⟩ := hans
      have hreq := hout hold
      have hsn := c.has_isSnooping hreq
      rcases he with ⟨-, hu' | hs | rfl⟩ | ⟨-, -, hh⟩
      · rw [hu] at hu'
        cases hu'
      · rw [hsn] at hs
        cases hs
      · simp at hreq
      · have hm : pkt.isCacheMaintenance = false := by simpa [Call.brings] using hbr
        rw [hm, if_neg (by decide)] at hh
        rw [hh, c.has_or, c.has_portToMask, hsn]
        simp
    · rcases he with ⟨rfl, -⟩ | ⟨-, -, hh⟩
      · exact hrcv hold
      · rw [hh]
        split
        · rename_i hm
          split
          · rename_i hi
            have hne : port ≠ p := by
              rintro rfl
              simp [gives, loses, Call.line, Call.pkt, hm, hi] at hgive
            rw [c.has_clear, hrcv hold, decide_eq_true hne, Bool.and_true]
          · exact hrcv hold
        · rw [c.has_or, hrcv hold, Bool.true_or]
  | snoop pkt =>
    obtain ⟨hold, hgive⟩ := hnew.resolve_left (by simp [Call.answers])
    obtain ⟨hsn, rfl | ⟨hi, -, rfl⟩⟩ := he
    · exact hrcv hold
    · -- every holder is in the list of snooped ports
      have hmem : p ∈ snooped := by
        rw [hsn, c.mem_maskToPortList, c.has_or, hrcv hold, Bool.true_or]
      simp [gives, loses, Call.line, Call.pkt, hi, hmem] at hgive
  | snoopResponse pkt rspPort port =>
    rcases hnew with ⟨⟨hold, hans⟩, -⟩ | ⟨hold, hgive⟩
    · simp only [Call.answers, and_eq_true, beq_iff_eq, not_eq_true'] at hans
      obtain ⟨⟨-, rfl⟩, hu⟩ := hans
      have hsn := c.has_isSnooping (hout hold)
      rcases he with ⟨-, hu' | hs⟩ | ⟨-, -, -, hh⟩
      · rw [hu] at hu'
        cases hu'
      · rw [hsn] at hs
        cases hs
      · rw [hh, c.has_or, c.has_portToMask, hsn]
        simp
    · rcases he with ⟨rfl, -⟩ | ⟨hu, hs, -, hh⟩
      · exact hrcv hold
      · have hsh : pkt.hasSharers = true := by
          simpa [gives, loses, Call.line, Call.pkt, hu, hs] using hgive
        rw [hh, hsh, Bool.not_true, if_neg (by decide), c.has_or, hrcv hold, Bool.true_or]
  | snoopForward pkt =>
    obtain ⟨hold, hgive⟩ := hnew.resolve_left (by simp [Call.answers])
    rcases he with rfl | ⟨hs, rfl⟩
    · exact hrcv hold
    · simp [gives, loses, Call.line, Call.pkt, hs] at hgive

end Step

theorem Covers.step {snooped : List c.Port} (hc : Covers h f) (hx : exec f call = .ok (g, snooped)) :
    Covers (⟨call, snooped⟩ :: h) g := by
  obtain ⟨item, heff, hw⟩ := exec_effect hc.noNull hx
  refine ⟨hc.noNull.writes hw, fun k p hnew => ?_, fun k p hnew => ?_⟩
  · rw [entry_of_writes hw k]
    by_cases hk : k = call.line
    · subst hk
      rw [if_pos rfl]
      exact requested_step heff (hc.out _ p) hnew
    · obtain ⟨ha, hn, -⟩ := other_line hk p snooped
      rw [if_neg hk]
      apply hc.out k p
      simpa [outstanding, ha, hn] using hnew
  · rw [entry_of_writes hw k]
    by_cases hk : k = call.line
    · subst hk
      rw [if_pos rfl]
      exact holder_step heff (hc.out _ p) (hc.rcv _ p) hnew
    · obtain ⟨-, hn, hg⟩ := other_line hk p snooped
      rw [if_neg hk]
      apply hc.rcv k p
      simpa [received, hn, hg] using hnew

theorem Runs.covers (hr : Runs h f) : Covers h f := by
  induction hr with
  | nil => exact ⟨fun k item hl => by simp at hl, fun k p hn => by simp [outstanding] at hn,
      fun k p hn => by simp [received] at hn⟩
  | cons _ hx ih => exact ih.step hx

theorem Covers.tracked (hc : Covers h f) {p : c.Port} (ht : tracked gives k p h = true) :
    c.has ((entry f k).requested ||| (entry f k).holder) p = true := by
  rw [c.has_or, or_eq_true]
  rw [SnoopFilter.tracked, or_eq_true] at ht
  exact ht.imp (hc.out k p) (hc.rcv k p)

theorem Call.line_ne_lineKey (call : Call c) (a : Addr) : c.lineKey a (!call.pkt.isSecure) ≠ call.line := by
  rw [Call.line, lineAddr_eq_lineKey]
  cases call.pkt.isSecure with
  | true => exact (lineKey_true_ne_false c _ _).symm
  | false => exact lineKey_true_ne_false c _ _

/-- **The filter is sound.**  After every run of calls, every port that may have a line is in the line's entry; no entry
is null; a further call leaves the entries of the other security state alone; and the ports it has snooped include every
port that may have the line, apart from the requestor. -/
theorem filter_sound (c : Config) (h : List (Event c)) (f : SnoopFilter) (hr : Runs h f) :
    (∀ k p, tracked gives k p h = true →
      ∃ item, f.cachedLocations.lookup k = some item ∧ c.has (item.requested ||| item.holder) p = true) ∧
    NoNullEntry f.cachedLocations ∧
    (∀ (call : Call c) g snooped, exec f call = .ok (g, snooped) → ∀ a,
      g.cachedLocations.lookup (c.lineKey a (!call.pkt.isSecure)) =
        f.cachedLocations.lookup (c.lineKey a (!call.pkt.isSecure))) ∧
    (∀ pkt port willRetry g snooped, exec f (.request pkt port willRetry) = .ok (g, snooped) →
      ∀ p, tracked gives (c.lineAddr pkt) p h = true → p ≠ port → p ∈ snooped) ∧
    (∀ pkt g snooped, exec f (.snoop pkt) = .ok (g, snooped) →
      ∀ p, tracked gives (c.lineAddr pkt) p h = true → p ∈ snooped) := by
  have hc := hr.covers
  refine ⟨?_, hc.noNull, ?_, ?_, ?_⟩
  · intro k p ht
    have hp := hc.tracked ht
    rw [entry] at hp
    cases hl : f.cachedLocations.lookup k with
    | none => simp [hl] at hp
    | some item => exact ⟨item, rfl, by simpa only [hl, Option.getD_some] using hp⟩
  · intro call g snooped hx a
    obtain ⟨item, -, hw⟩ := exec_effect hc.noNull hx
    rw [hw, if_neg (call.line_ne_lineKey a)]
  · intro pkt port willRetry g snooped hx p ht hne
    obtain ⟨item, ⟨hsn, -⟩, -⟩ := exec_effect hc.noNull hx
    have hp := hc.tracked ht
    rw [c.has_or, Bool.or_comm] at hp
    rw [hsn, c.mem_maskToPortList, c.has_clear, c.has_or]
    simp only [Call.line, Call.pkt, hp, Bool.true_and, decide_eq_true_eq]
    exact hne.symm
  · intro pkt g snooped hx p ht
    obtain ⟨item, ⟨hsn, -⟩, -⟩ := exec_effect hc.noNull hx
    have hp := hc.tracked ht
    rw [c.has_or, Bool.or_comm] at hp
    rw [hsn, c.mem_maskToPortList, c.has_or]
    exact hp

def sampleMaintenance (cmd : MemCmd) : SnoopPacket := { samplePacket cmd with isCacheMaintenance := true }

def firstPort : Fin 2 := Fin.mk 0 Nat.zero_lt_two

def sampleHistory : List (Event sampleConfig) :=
  [⟨.response (sampleMaintenance .cleanInvalidResp) firstPort, []⟩,
    ⟨.request (sampleMaintenance .cleanInvalidReq) firstPort false, []⟩,
    ⟨.response (samplePacket .readResp) firstPort, []⟩,
    ⟨.request (samplePacket .readSharedReq) firstPort false, []⟩]

theorem sampleHistory_runs : ∃ f, Runs sampleHistory f ∧ f.cachedLocations.lookup 64 = none :=
  ⟨_, .cons (.cons (.cons (.cons .nil rfl) rfl) rfl) rfl, rfl⟩

/-- **The port of an invalidating maintenance request is forgotten**, though it was brought the line and has neither
evicted it nor been snooped. -/
theorem forgets_maintenance_port :
    ∃ (h : List (Event sampleConfig)) (f : SnoopFilter), Runs h f ∧ tracked loses 64 (0 : Fin 2) h = true ∧
      f.cachedLocations.lookup 64 = none := by
  obtain ⟨f, hr, hl⟩ := sampleHistory_runs
  exact ⟨sampleHistory, f, hr, by decide, hl⟩

theorem filter_sound_sample :
    ∃ f g, Runs (sampleHistory.drop 2) f ∧
      exec f (c := sampleConfig) (.request (samplePacket .readExReq) (1 : Fin 2) false) = .ok (g, [(0 : Fin 2)]) ∧
      ∃ item, f.cachedLocations.lookup 64 = some item ∧
        sampleConfig.has (item.requested ||| item.holder) (0 : Fin 2) = true := by
  have hr : Runs (sampleHistory.drop 2) _ := .cons (.cons .nil rfl) rfl
  exact ⟨_, _, hr, rfl, (filter_sound sampleConfig (sampleHistory.drop 2) _ hr).1 64 (0 : Fin 2) (by decide)⟩

end SnoopFilter
end Gem5
