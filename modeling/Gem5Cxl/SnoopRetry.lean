import Gem5Cxl.SnoopFilter
/-!
# SnoopRetry — a request that is sent again leaves no trace (`SnoopFilter::lookupRequest`, `finishRequest`)

`lookupRequest` changes at most the entry of its line and keeps the old entry in `retryItem`.  Its inversion lemma says so
once; restoring the entry and erasing it if it is null then gives back the map, entry by entry.
-/
namespace Gem5
namespace SnoopFilter

def NoNullEntry (m : SnoopFilterCache) : Prop := ∀ k item, m.lookup k = some item → item.isNull = false

@[simp] theorem isNull_empty : SnoopItem.isNull {} = true := by decide

theorem lookup_eraseIfNullEntry_insert (m : SnoopFilterCache) (k : Addr) (item : SnoopItem) (k' : Addr) :
    (eraseIfNullEntry (m.insert k item) k).lookup k' =
      if k' = k then (if item.isNull then none else some item) else m.lookup k' := by
  rw [eraseIfNullEntry, Finmap.lookup_insert]
  by_cases hk : k' = k
  · subst hk
    rw [if_pos rfl]
    by_cases hn : item.isNull = true
    · simp only [hn, if_true, Finmap.lookup_erase]
    · simp only [hn, Bool.false_eq_true, if_false, Finmap.lookup_insert]
  · rw [if_neg hk]
    by_cases hn : item.isNull = true
    · simp only [hn, if_true]
      rw [Finmap.lookup_erase_ne hk, Finmap.lookup_insert_of_ne m hk]
    · simp only [hn, Bool.false_eq_true, if_false]
      rw [Finmap.lookup_insert_of_ne m hk]

variable {m : SnoopFilterCache} {item : SnoopItem}

theorem insert_lookup_self {k : Addr} (h : m.lookup k = some item) : m.insert k item = m := by
  apply Finmap.ext_lookup
  intro k'
  by_cases hk : k' = k
  · rw [hk, Finmap.lookup_insert, h]
  · rw [Finmap.lookup_insert_of_ne m hk]

variable {c : Config} {f : SnoopFilter} {pkt : SnoopPacket} {port : c.Port}

def entryOf (c : Config) (f : SnoopFilter) (pkt : SnoopPacket) : SnoopItem :=
  (f.cachedLocations.lookup (c.lineAddr pkt)).getD {}

/-- **What `lookupRequest` does**: nothing, when the line is unknown and the request leaves no mark; otherwise it writes
one entry and keeps the old one. -/
theorem lookupRequest_cases {r : SnoopFilter × List c.Port × Nat} (h : lookupRequest c f pkt port = .ok r) :
    (f.cachedLocations.lookup (c.lineAddr pkt) = none ∧ allocates c pkt port = false ∧
      r.1.cachedLocations = f.cachedLocations ∧ r.1.reqLookupResult.it = none ∧ r.2.1 = []) ∨
    ∃ item, ((allocates c pkt port = false ∧ item = entryOf c f pkt) ∨
        (allocates c pkt port = true ∧ recordRequest c (entryOf c f pkt) pkt port = .ok item)) ∧
      r.1.cachedLocations = f.cachedLocations.insert (c.lineAddr pkt) item ∧
      r.1.reqLookupResult = { it := some (c.lineAddr pkt), retryItem := entryOf c f pkt } ∧
      r.2.1 = c.maskToPortList (((entryOf c f pkt).holder ||| (entryOf c f pkt).requested) &&& ~~~c.portToMask port) := by
  simp only [lookupRequest] at h
  cases hl : f.cachedLocations.lookup (c.lineAddr pkt) with
  | none =>
    cases ha : allocates c pkt port with
    | false =>
      simp only [hl, ha] at h
      cases h
      exact .inl ⟨rfl, rfl, rfl, rfl, rfl⟩
    | true =>
      simp only [hl, ha, Option.isSome_none, Bool.not_false, Bool.not_true, Bool.and_false, Bool.false_eq_true, if_false,
        Option.getD_none] at h
      obtain ⟨item, hitem, h⟩ := Run.bind_eq_ok.1 h
      cases h
      refine .inr ⟨item, .inr ⟨rfl, ?_⟩, ?_, ?_, ?_⟩
      · rw [entryOf, hl, Option.getD_none, hitem]
      · exact Finmap.insert_insert ..
      · rw [entryOf, hl, Option.getD_none]
      · rw [entryOf, hl, Option.getD_none]
  | some old =>
    have hold : entryOf c f pkt = old := by rw [entryOf, hl, Option.getD_some]
    rw [hold]
    cases ha : allocates c pkt port with
    | false =>
      simp only [hl, ha, Option.isSome_some, Bool.not_true, Bool.false_and, Bool.false_eq_true, if_false, Bool.not_false,
        if_true, Option.getD_some] at h
      cases h
      exact .inr ⟨old, .inl ⟨rfl, rfl⟩, (insert_lookup_self hl).symm, rfl, rfl⟩
    | true =>
      simp only [hl, ha, Option.isSome_some, Bool.not_true, Bool.false_and, Bool.false_eq_true, if_false, if_true,
        Option.getD_some] at h
      obtain ⟨item, hitem, h⟩ := Run.bind_eq_ok.1 h
      cases h
      exact .inr ⟨item, .inr ⟨rfl, hitem⟩, rfl, rfl, rfl⟩

theorem finishRequest_eq {g : SnoopFilter} {old : SnoopItem} (willRetry : Bool)
    (hm : g.cachedLocations = m.insert (c.lineAddr pkt) item)
    (hr : g.reqLookupResult = { it := some (c.lineAddr pkt), retryItem := old }) :
    finishRequest c g willRetry pkt.addr pkt.isSecure =
      .ok { cachedLocations := eraseIfNullEntry (m.insert (c.lineAddr pkt) (if willRetry then old else item))
              (c.lineAddr pkt),
            reqLookupResult := g.reqLookupResult } := by
  have hit : g.reqLookupResult.it = some (c.lineAddr pkt) := by rw [hr]
  have hl : g.cachedLocations.lookup (c.lineAddr pkt) = some item := by rw [hm, Finmap.lookup_insert]
  simp only [finishRequest, hit, hl, ← lineAddr_eq_lineKey, beq_self_eq_true, assertThat_true, Run.ok_bind,
    Run.pure_eq_ok]
  rw [hr, hm, Finmap.insert_insert]

/-- **A rejected request leaves no trace.**  Whatever `lookupRequest` did, `finishRequest` returns; told to retry it gives
back the map, and otherwise it changes no other line. -/
theorem finishRequest_undoes_lookupRequest (c : Config) (f : SnoopFilter) (pkt : SnoopPacket) (port : c.Port)
    (hnull : NoNullEntry f.cachedLocations) (r : SnoopFilter × List c.Port × Nat)
    (h : lookupRequest c f pkt port = .ok r) :
    (∃ g, finishRequest c r.1 true pkt.addr pkt.isSecure = .ok g ∧ g.cachedLocations = f.cachedLocations) ∧
    (∃ g, finishRequest c r.1 false pkt.addr pkt.isSecure = .ok g ∧
      ∀ k, k ≠ c.lineAddr pkt → g.cachedLocations.lookup k = f.cachedLocations.lookup k) := by
  rcases lookupRequest_cases h with ⟨-, -, hm, hit, -⟩ | ⟨item, -, hm, hr, -⟩
  · have hfin : ∀ willRetry, finishRequest c r.1 willRetry pkt.addr pkt.isSecure = .ok r.1 := by
      intro willRetry
      rw [finishRequest, hit]
    exact ⟨⟨r.1, hfin true, hm⟩, ⟨r.1, hfin false, fun k _ => by rw [hm]⟩⟩
  · refine ⟨⟨_, finishRequest_eq true hm hr, ?_⟩, ⟨_, finishRequest_eq false hm hr, ?_⟩⟩
    · apply Finmap.ext_lookup
      intro k
      rw [if_pos rfl, lookup_eraseIfNullEntry_insert]
      by_cases hk : k = c.lineAddr pkt
      · -- a fresh entry is null and goes; a stored one is not null and stays
        rw [if_pos hk, entryOf, ← hk]
        cases hl : f.cachedLocations.lookup k with
        | none => rw [Option.getD_none, isNull_empty, if_pos rfl]
        | some old => rw [Option.getD_some, hnull k old hl, if_neg (by decide)]
      · rw [if_neg hk]
    · intro k hk
      rw [lookup_eraseIfNullEntry_insert, if_neg hk]

def sampleConfig : Config where
  numPorts := 2
  isSnooping := fun _ => true
  ports := (List.finRange 2).foldl (Ports.add fun _ => true) {}
  maxEntryCount := 16
  ports_eq := rfl

def samplePacket (cmd : MemCmd) : SnoopPacket :=
  { cmd, req := { paddr := 64 }, addr := 64, size := 64, size_lt := Packet.lineSize_lt }

theorem finishRequest_undoes_lookupRequest_fresh :
    ∃ r g, lookupRequest sampleConfig {} (samplePacket .readSharedReq) (0 : Fin 2) = .ok r ∧
      r.1.cachedLocations ≠ ∅ ∧ finishRequest sampleConfig r.1 true 64 false = .ok g ∧ g.cachedLocations = ∅ := by
  obtain ⟨⟨g, hg, hm⟩, -⟩ := finishRequest_undoes_lookupRequest sampleConfig {} (samplePacket .readSharedReq) (0 : Fin 2)
    (fun k item h => by simp at h) _ rfl
  refine ⟨_, g, rfl, ?_, hg, hm⟩
  intro h
  have hl := congrArg (Finmap.lookup 64) h
  cases hl

end SnoopFilter
end Gem5
