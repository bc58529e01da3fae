import Gem5Cxl.AddrRange
/-!
# AddrRangeMap — an interval map with a cache of recent entries (`base/addr_range_map.hh`)

The tree is the list of its nodes in key order.  An iterator is the identity of a node, so that one that outlives its
node can be told from one to a later node; `end()` is `none`.  Reading through an iterator whose node is gone fails.
-/
namespace Gem5

structure RangeNode (V : Type) where
  id : Nat
  range : AddrRange
  value : V
deriving DecidableEq, Repr

/-- `AddrRangeMap<V, max_cache_size>`.  `nextId` names the next node allocated. -/
structure AddrRangeMap (V : Type) where
  tree : List (RangeNode V) := []
  cache : List Nat := []
  nextId : Nat := 0
deriving DecidableEq, Repr

namespace AddrRangeMap

variable {V : Type}

def deref (m : AddrRangeMap V) (it : Nat) : Except Failure (RangeNode V) :=
  match m.tree.find? (fun n => n.id == it) with
  | some n => .ok n
  | none => .error .nullPointer

/-- `addNewEntryToCache`: in a full cache the last element is overwritten and moved to the front. -/
def addNewEntryToCache (maxCacheSize : Nat) (cache : List Nat) (it : Nat) : List Nat :=
  if maxCacheSize ≠ 0 then
    if maxCacheSize ≤ cache.length then
      if 1 < maxCacheSize then it :: cache.dropLast else cache.dropLast ++ [it]
    else it :: cache
  else cache

/-- The loop over the cache in `find`: the first entry that meets the condition. -/
def searchCache (m : AddrRangeMap V) (cond : AddrRange → Except Failure Bool) : List Nat → Except Failure (Option Nat)
  | [] => .ok none
  | c :: cs => do
    let n ← m.deref c
    let hit ← cond n.range
    if hit then .ok (some c) else m.searchCache cond cs

/-- The backwards loop of `find`, over the nodes before `upper_bound`, last one first.  It goes on as long as the node
    before merges with the one just tried. -/
def searchBack (cond : AddrRange → Except Failure Bool) : List (RangeNode V) → Except Failure (Option (RangeNode V))
  | [] => .ok none
  | i :: rest => do
    let hit ← cond i.range
    if hit then .ok (some i)
    else
      match rest.head? with
      | none => .ok none
      | some next => if next.range.mergesWith i.range then searchBack cond rest else .ok none

def below (m : AddrRangeMap V) (r : AddrRange) : List (RangeNode V) := m.tree.takeWhile (fun n => !r.lt n.range)

def above (m : AddrRangeMap V) (r : AddrRange) : List (RangeNode V) := m.tree.dropWhile (fun n => !r.lt n.range)

def searchTree (m : AddrRangeMap V) (r : AddrRange) (cond : AddrRange → Except Failure Bool) :
    Except Failure (Option (RangeNode V)) := do
  match (m.above r).head? with
  | some next =>
    let hit ← cond next.range
    if hit then .ok (some next) else searchBack cond (m.below r).reverse
  | none => searchBack cond (m.below r).reverse

def find (maxCacheSize : Nat) (m : AddrRangeMap V) (r : AddrRange) (cond : AddrRange → Except Failure Bool) :
    Except Failure (AddrRangeMap V × Option Nat) := do
  let cached ← m.searchCache cond m.cache
  match cached with
  | some c => .ok ({ m with cache := c :: m.cache.erase c }, some c)
  | none =>
    let found ← m.searchTree r cond
    match found with
    | some n => .ok ({ m with cache := addNewEntryToCache maxCacheSize m.cache n.id }, some n.id)
    | none => .ok (m, none)

def contains (maxCacheSize : Nat) (m : AddrRangeMap V) (r : AddrRange) :
    Except Failure (AddrRangeMap V × Option Nat) := m.find maxCacheSize r r.isSubset

def containsAddr (maxCacheSize : Nat) (m : AddrRangeMap V) (a : Addr) :
    Except Failure (AddrRangeMap V × Option Nat) := m.contains maxCacheSize (rangeSize a 1)

def intersects (maxCacheSize : Nat) (m : AddrRangeMap V) (r : AddrRange) :
    Except Failure (AddrRangeMap V × Option Nat) := m.find maxCacheSize r r.intersects

/-- `tree.insert(make_pair(r, d)).first`: an entry with an equivalent key is returned as it is. -/
def treeInsert (m : AddrRangeMap V) (r : AddrRange) (d : V) : AddrRangeMap V × Nat :=
  match m.tree.find? (fun n => !n.range.lt r && !r.lt n.range) with
  | some n => (m, n.id)
  | none =>
    ({ m with tree := m.below r ++ ⟨m.nextId, r, d⟩ :: m.above r, nextId := m.nextId + 1 }, m.nextId)

def insert (maxCacheSize : Nat) (m : AddrRangeMap V) (r : AddrRange) (d : V) :
    Except Failure (AddrRangeMap V × Option Nat) := do
  let (m, hit) ← m.intersects maxCacheSize r
  match hit with
  | some _ => .ok (m, none)
  | none => .ok ((m.treeInsert r d).1, some (m.treeInsert r d).2)

def erase (m : AddrRangeMap V) (p : Nat) : Except Failure (AddrRangeMap V) := do
  let _ ← m.deref p
  .ok { m with cache := m.cache.filter (fun c => c != p), tree := m.tree.filter (fun n => n.id != p) }

def nodesFrom (m : AddrRangeMap V) (p : Option Nat) : List (RangeNode V) := m.tree.dropWhile (fun n => some n.id != p)

def segment (m : AddrRangeMap V) (p q : Option Nat) : List (RangeNode V) :=
  (m.nodesFrom p).takeWhile (fun n => some n.id != q)

/-- `erase(p, q)`.  Each round of the loop over `[p, q)` removes `p` from the cache.  `q` has to be reachable from `p`. -/
def eraseRange (m : AddrRangeMap V) (p q : Option Nat) : Except Failure (AddrRangeMap V) :=
  if q = none ∨ q ∈ (m.nodesFrom p).map (fun n => some n.id) then
    .ok { m with
      cache := (m.segment p q).foldl (fun cache _ => cache.filter (fun c => some c != p)) m.cache
      tree := m.tree.takeWhile (fun n => some n.id != p) ++ (m.nodesFrom p).dropWhile (fun n => some n.id != q) }
  else .error .nullPointer

def clear (m : AddrRangeMap V) : AddrRangeMap V := { m with cache := [], tree := [] }

inductive Op (V : Type) where
  | insert (r : AddrRange) (d : V)
  | contains (r : AddrRange)
  | containsAddr (a : Addr)
  | intersects (r : AddrRange)
  | erase (p : Nat)
  | eraseRange (p q : Option Nat)
  | clear

def step (maxCacheSize : Nat) (m : AddrRangeMap V) : Op V → Except Failure (AddrRangeMap V)
  | .insert r d => (m.insert maxCacheSize r d).map Prod.fst
  | .contains r => (m.contains maxCacheSize r).map Prod.fst
  | .containsAddr a => (m.containsAddr maxCacheSize a).map Prod.fst
  | .intersects r => (m.intersects maxCacheSize r).map Prod.fst
  | .erase p => m.erase p
  | .eraseRange p q => m.eraseRange p q
  | .clear => .ok m.clear

/-! ## The iterators of a map -/

structure Numbered (m : AddrRangeMap V) : Prop where
  nodup : (m.tree.map RangeNode.id).Nodup
  fresh : ∀ n ∈ m.tree, n.id < m.nextId

/-- What the source says of its cache: every element is a valid iterator of the tree, there are at most
    `max_cache_size` of them, none twice. -/
structure CacheValid (maxCacheSize : Nat) (m : AddrRangeMap V) : Prop where
  live : ∀ c ∈ m.cache, c ∈ m.tree.map RangeNode.id
  size : m.cache.length ≤ maxCacheSize
  nodup : m.cache.Nodup

theorem numbered_empty : Numbered ({} : AddrRangeMap V) := ⟨List.nodup_nil, by simp⟩

theorem cacheValid_empty (maxCacheSize : Nat) : CacheValid maxCacheSize ({} : AddrRangeMap V) :=
  ⟨by simp, Nat.zero_le _, List.nodup_nil⟩

theorem below_append_above (m : AddrRangeMap V) (r : AddrRange) : m.below r ++ m.above r = m.tree :=
  List.takeWhile_append_dropWhile

variable {n n' : RangeNode V} {m m' : AddrRangeMap V} {c maxCacheSize : Nat} {cond : AddrRange → Except Failure Bool}
  {cs cache : List Nat} {r : AddrRange} {it p q : Option Nat} {s : List (RangeNode V)} {op : Op V}

theorem Numbered.inj (h : Numbered m) (hn : n ∈ m.tree) (hn' : n' ∈ m.tree) (hid : n.id = n'.id) :
    n = n' := List.inj_on_of_nodup_map h.nodup hn hn' hid

theorem Numbered.deref (h : Numbered m) (hn : n ∈ m.tree) : m.deref n.id = .ok n := by
  unfold AddrRangeMap.deref
  cases hf : m.tree.find? (fun n' => n'.id == n.id) with
  | none =>
    have := List.find?_eq_none.1 hf n hn
    simp at this
  | some n' =>
    have hid : n'.id = n.id := by simpa using List.find?_some hf
    rw [h.inj (List.mem_of_find?_eq_some hf) hn hid]

theorem deref_eq_ok {it : Nat} (h : m.deref it = .ok n) : n ∈ m.tree ∧ n.id = it := by
  unfold AddrRangeMap.deref at h
  split at h
  · rename_i n' hf
    cases h
    exact ⟨List.mem_of_find?_eq_some hf, by simpa using List.find?_some hf⟩
  · cases h

/-! ## What a search does -/

theorem searchCache_some (h : m.searchCache cond cs = .ok (some c)) :
    c ∈ cs ∧ ∃ n ∈ m.tree, n.id = c ∧ cond n.range = .ok true := by
  induction cs with
  | nil => cases h
  | cons x cs ih =>
    simp only [searchCache, Run.bind_eq_ok] at h
    obtain ⟨n, hn, hit, hc, h⟩ := h
    cases hit with
    | true =>
      cases h
      obtain ⟨hmem, hid⟩ := deref_eq_ok hn
      exact ⟨List.mem_cons_self, n, hmem, hid, hc⟩
    | false =>
      obtain ⟨hmem, hex⟩ := ih h
      exact ⟨List.mem_cons_of_mem _ hmem, hex⟩

theorem searchCache_none (h : m.searchCache cond cs = .ok none) :
    ∀ c ∈ cs, ∃ n, m.deref c = .ok n ∧ cond n.range = .ok false := by
  induction cs with
  | nil => simp
  | cons x cs ih =>
    simp only [searchCache, Run.bind_eq_ok] at h
    obtain ⟨n, hn, hit, hc, h⟩ := h
    cases hit with
    | true => cases h
    | false => exact List.forall_mem_cons.2 ⟨⟨n, hn, hc⟩, ih h⟩

theorem searchBack_some {l : List (RangeNode V)} (h : searchBack cond l = .ok (some n)) :
    n ∈ l ∧ cond n.range = .ok true := by
  induction l with
  | nil => cases h
  | cons i rest ih =>
    simp only [searchBack, Run.bind_eq_ok] at h
    obtain ⟨hit, hc, h⟩ := h
    cases hit with
    | true =>
      cases h
      exact ⟨List.mem_cons_self, hc⟩
    | false =>
      simp only [Bool.false_eq_true, if_false] at h
      split at h
      · cases h
      · split at h
        · exact ⟨List.mem_cons_of_mem _ (ih h).1, (ih h).2⟩
        · cases h

theorem searchTree_some (h : m.searchTree r cond = .ok (some n)) : n ∈ m.tree ∧ cond n.range = .ok true := by
  have back : searchBack cond (m.below r).reverse = .ok (some n) → n ∈ m.tree ∧ cond n.range = .ok true := by
    intro hb
    obtain ⟨hmem, hc⟩ := searchBack_some hb
    exact ⟨(List.takeWhile_sublist _).subset (List.mem_reverse.1 hmem), hc⟩
  unfold searchTree at h
  split at h
  · rename_i next hnext
    rw [Run.bind_eq_ok] at h
    obtain ⟨hit, hc, h⟩ := h
    cases hit with
    | true =>
      cases h
      exact ⟨(List.dropWhile_sublist _).subset (List.mem_of_mem_head? hnext), hc⟩
    | false => exact back h
  · exact back h

/-- How a search ends: with a cached entry, with an entry of the tree that is not cached, or with none. -/
inductive Finds (maxCacheSize : Nat) (m : AddrRangeMap V) (r : AddrRange) (cond : AddrRange → Except Failure Bool) :
    AddrRangeMap V → Option Nat → Prop
  | cached {n : RangeNode V} (mem : n ∈ m.tree) (hit : n.id ∈ m.cache) (meets : cond n.range = .ok true) :
      Finds maxCacheSize m r cond { m with cache := n.id :: m.cache.erase n.id } (some n.id)
  | tree {n : RangeNode V} (mem : n ∈ m.tree) (found : m.searchTree r cond = .ok (some n))
      (miss : ∀ c ∈ m.cache, ∃ n', m.deref c = .ok n' ∧ cond n'.range = .ok false) (meets : cond n.range = .ok true) :
      Finds maxCacheSize m r cond { m with cache := addNewEntryToCache maxCacheSize m.cache n.id } (some n.id)
  | absent (found : m.searchTree r cond = .ok none)
      (miss : ∀ c ∈ m.cache, ∃ n', m.deref c = .ok n' ∧ cond n'.range = .ok false) :
      Finds maxCacheSize m r cond m none

theorem find_cases (h : m.find maxCacheSize r cond = .ok (m', it)) : Finds maxCacheSize m r cond m' it := by
  unfold find at h
  rw [Run.bind_eq_ok] at h
  obtain ⟨cached, hc, h⟩ := h
  cases cached with
  | some c =>
    cases h
    obtain ⟨hmem, n, hn, rfl, hcond⟩ := searchCache_some hc
    exact .cached hn hmem hcond
  | none =>
    dsimp only at h
    rw [Run.bind_eq_ok] at h
    obtain ⟨found, hf, h⟩ := h
    cases found with
    | some n =>
      cases h
      exact .tree (searchTree_some hf).1 hf (searchCache_none hc) (searchTree_some hf).2
    | none =>
      cases h
      exact .absent hf (searchCache_none hc)

/-! ## The cache across a search -/

theorem mem_addNewEntryToCache {it : Nat} (h : c ∈ addNewEntryToCache maxCacheSize cache it) : c = it ∨ c ∈ cache := by
  unfold addNewEntryToCache at h
  split at h
  · split at h
    · split at h
      · exact (List.mem_cons.1 h).imp_right fun hmem => (List.dropLast_sublist _).subset hmem
      · exact (List.mem_append.1 h).symm.imp List.mem_singleton.1 fun hmem => (List.dropLast_sublist _).subset hmem
    · exact List.mem_cons.1 h
  · exact Or.inr h

theorem addNewEntryToCache_length {it : Nat} (h : cache.length ≤ maxCacheSize) :
    (addNewEntryToCache maxCacheSize cache it).length ≤ maxCacheSize := by
  unfold addNewEntryToCache
  split
  · split
    · split
      · rw [List.length_cons, List.length_dropLast]
        omega
      · rw [List.length_append, List.length_dropLast, List.length_singleton]
        omega
    · rw [List.length_cons]
      omega
  · exact h

theorem addNewEntryToCache_nodup {it : Nat} (h : cache.Nodup) (hit : it ∉ cache) :
    (addNewEntryToCache maxCacheSize cache it).Nodup := by
  have hlast : cache.dropLast.Nodup := h.sublist (List.dropLast_sublist _)
  have hnot : it ∉ cache.dropLast := fun hmem => hit ((List.dropLast_sublist _).subset hmem)
  unfold addNewEntryToCache
  split
  · split
    · split
      · exact List.nodup_cons.2 ⟨hnot, hlast⟩
      · exact List.nodup_append.2 ⟨hlast, List.nodup_singleton _, fun a ha b hb hab =>
          hnot (List.mem_singleton.1 hb ▸ hab ▸ ha)⟩
    · exact List.nodup_cons.2 ⟨hit, h⟩
  · exact h

theorem Finds.tree_eq (h : Finds maxCacheSize m r cond m' it) : m'.tree = m.tree ∧ m'.nextId = m.nextId := by
  cases h <;> exact ⟨rfl, rfl⟩

/-- **A search keeps the cache valid.**  An entry is added only when no cached entry meets the condition, and it does. -/
theorem Finds.cacheValid (hm : Numbered m) (hv : CacheValid maxCacheSize m) (h : Finds maxCacheSize m r cond m' it) :
    CacheValid maxCacheSize m' := by
  cases h with
  | cached hn hit hcond =>
    have hperm := List.perm_cons_erase hit
    refine ⟨fun c hc => hv.live c (hperm.mem_iff.2 hc), ?_, hperm.nodup_iff.1 hv.nodup⟩
    exact hperm.length_eq ▸ hv.size
  | @tree n hn _ miss hcond =>
    have hnot : n.id ∉ m.cache := by
      intro hmem
      obtain ⟨n', hd, hf⟩ := miss n.id hmem
      rw [hm.deref hn] at hd
      cases hd
      rw [hcond] at hf
      cases hf
    refine ⟨fun c hc => ?_, addNewEntryToCache_length hv.size, addNewEntryToCache_nodup hv.nodup hnot⟩
    rcases mem_addNewEntryToCache hc with rfl | hc
    · exact List.mem_map_of_mem hn
    · exact hv.live c hc
  | absent => exact hv

/-! ## Insertion and erasure -/

theorem treeInsert_cases (m : AddrRangeMap V) (r : AddrRange) (d : V) :
    (∃ n ∈ m.tree, n.range.lt r = false ∧ r.lt n.range = false ∧ m.treeInsert r d = (m, n.id)) ∨
    ((∀ n ∈ m.tree, ¬ (n.range.lt r = false ∧ r.lt n.range = false)) ∧
      m.treeInsert r d =
        ({ m with tree := m.below r ++ ⟨m.nextId, r, d⟩ :: m.above r, nextId := m.nextId + 1 }, m.nextId)) := by
  unfold treeInsert
  cases hf : m.tree.find? (fun n => !n.range.lt r && !r.lt n.range) with
  | some n =>
    have hn : n.range.lt r = false ∧ r.lt n.range = false := by simpa using List.find?_some hf
    exact Or.inl ⟨n, List.mem_of_find?_eq_some hf, hn.1, hn.2, rfl⟩
  | none =>
    refine Or.inr ⟨fun n hn hk => ?_, rfl⟩
    have := List.find?_eq_none.1 hf n hn
    simp [hk.1, hk.2] at this

theorem perm_inserted (m : AddrRangeMap V) (r : AddrRange) (n : RangeNode V) :
    (m.below r ++ n :: m.above r).Perm (n :: m.tree) := by
  conv_rhs => rw [← below_append_above m r]
  exact List.perm_middle

theorem mem_inserted : n' ∈ m.below r ++ n :: m.above r ↔ n' = n ∨ n' ∈ m.tree := by
  rw [(perm_inserted m r n).mem_iff, List.mem_cons]

theorem treeInsert_numbered (h : Numbered m) (r : AddrRange) (d : V) : Numbered (m.treeInsert r d).1 := by
  rcases treeInsert_cases m r d with ⟨n, -, -, -, he⟩ | ⟨-, he⟩
  · rw [he]
    exact h
  · rw [he]
    have hperm := (perm_inserted m r ⟨m.nextId, r, d⟩).map RangeNode.id
    refine ⟨?_, fun n hn => ?_⟩
    · refine hperm.nodup_iff.2 (List.nodup_cons.2 ⟨fun hmem => ?_, h.nodup⟩)
      obtain ⟨n, hn, hid⟩ := List.mem_map.1 hmem
      exact absurd (h.fresh n hn) (Nat.not_lt.2 hid.ge)
    · rcases mem_inserted.1 hn with rfl | hn
      · exact Nat.lt_succ_self _
      · exact Nat.lt_succ_of_lt (h.fresh n hn)

theorem treeInsert_cacheValid (h : CacheValid maxCacheSize m) (r : AddrRange) (d : V) :
    CacheValid maxCacheSize (m.treeInsert r d).1 := by
  rcases treeInsert_cases m r d with ⟨n, -, -, -, he⟩ | ⟨-, he⟩
  · rw [he]
    exact h
  · rw [he]
    refine ⟨fun c hc => ?_, h.size, h.nodup⟩
    obtain ⟨n, hn, hid⟩ := List.mem_map.1 (h.live c hc)
    exact List.mem_map.2 ⟨n, mem_inserted.2 (Or.inr hn), hid⟩

theorem insert_cases {d : V} (h : m.insert maxCacheSize r d = .ok (m', it)) :
    ∃ m₁ hit, Finds maxCacheSize m r r.intersects m₁ hit ∧
      ((hit.isSome ∧ m' = m₁ ∧ it = none) ∨
        (hit = none ∧ m' = (m₁.treeInsert r d).1 ∧ it = some (m₁.treeInsert r d).2)) := by
  unfold insert at h
  rw [Run.bind_eq_ok] at h
  obtain ⟨⟨m₁, hit⟩, hf, h⟩ := h
  refine ⟨m₁, hit, find_cases hf, ?_⟩
  cases hit with
  | some c =>
    cases h
    exact Or.inl ⟨rfl, rfl, rfl⟩
  | none =>
    cases h
    exact Or.inr ⟨rfl, rfl, rfl⟩

theorem Numbered.sublist (h : Numbered m) (hs : m'.tree.Sublist m.tree) (hid : m'.nextId = m.nextId) : Numbered m' :=
  ⟨h.nodup.sublist (hs.map _), fun n hn => hid ▸ h.fresh n (hs.subset hn)⟩

theorem erase_eq_ok {p : Nat} (h : m.erase p = .ok m') :
    m' = { m with cache := m.cache.filter (fun c => c != p), tree := m.tree.filter (fun n => n.id != p) } := by
  unfold erase at h
  rw [Run.bind_eq_ok] at h
  obtain ⟨_, _, h⟩ := h
  cases h
  rfl

theorem erase_cacheValid {p : Nat} (hv : CacheValid maxCacheSize m) (h : m.erase p = .ok m') :
    CacheValid maxCacheSize m' := by
  rw [erase_eq_ok h]
  refine ⟨fun c hc => ?_, (List.length_filter_le _ _).trans hv.size, hv.nodup.filter _⟩
  obtain ⟨hc, hp⟩ := List.mem_filter.1 hc
  obtain ⟨n, hn, rfl⟩ := List.mem_map.1 (hv.live c hc)
  exact List.mem_map_of_mem (List.mem_filter.2 ⟨hn, hp⟩)

theorem segment_split (m : AddrRangeMap V) (p q : Option Nat) :
    m.tree.takeWhile (fun n => some n.id != p) ++ m.segment p q ++ (m.nodesFrom p).dropWhile (fun n => some n.id != q) =
      m.tree := by
  rw [List.append_assoc, segment, List.takeWhile_append_dropWhile, nodesFrom, List.takeWhile_append_dropWhile]

/-- The loop of `erase(p, q)` removes `p` from the cache if the segment is not empty, and nothing else. -/
theorem mem_segment_foldl :
    c ∈ s.foldl (fun cache _ => cache.filter (fun c => some c != p)) cache ↔ c ∈ cache ∧ (s ≠ [] → some c ≠ p) := by
  induction s generalizing cache with
  | nil => simp
  | cons n s ih =>
    rw [List.foldl_cons, ih, List.mem_filter]
    simp only [bne_iff_ne, ne_eq, reduceCtorEq, not_false_eq_true, forall_const]
    tauto

theorem segment_foldl_sublist : (s.foldl (fun cache _ => cache.filter (fun c => some c != p)) cache).Sublist cache := by
  induction s generalizing cache with
  | nil => exact List.Sublist.refl _
  | cons n s ih => exact ih.trans List.filter_sublist

theorem eraseRange_eq_ok (h : m.eraseRange p q = .ok m') : m' = { m with
      cache := (m.segment p q).foldl (fun cache _ => cache.filter (fun c => some c != p)) m.cache
      tree := m.tree.takeWhile (fun n => some n.id != p) ++ (m.nodesFrom p).dropWhile (fun n => some n.id != q) } := by
  unfold eraseRange at h
  split at h
  · cases h
    rfl
  · cases h

theorem eraseRange_sublist (h : m.eraseRange p q = .ok m') : m'.tree.Sublist m.tree := by
  rw [eraseRange_eq_ok h]
  conv_rhs => rw [← segment_split m p q]
  exact (List.sublist_append_left _ _).append (List.Sublist.refl _)

/-- The only cached iterator that an erasure of `[p, q)` may touch is `p`: the segment has no other cached node. -/
def SegmentUncached (m : AddrRangeMap V) (p q : Option Nat) : Prop :=
  ∀ n ∈ m.segment p q, n.id ∈ m.cache → some n.id = p

/-- **A ranged erasure keeps the cache valid exactly if no cached entry after the first is erased.** -/
theorem eraseRange_cacheValid_iff (hm : Numbered m) (hv : CacheValid maxCacheSize m) (h : m.eraseRange p q = .ok m') :
    CacheValid maxCacheSize m' ↔ m.SegmentUncached p q := by
  have he := eraseRange_eq_ok h
  have hnodup := hm.nodup
  rw [← segment_split m p q, List.append_assoc, List.map_append, List.map_append] at hnodup
  constructor
  · intro hv' n hn hc
    by_contra hp
    have hcache : n.id ∈ m'.cache := by
      rw [he]
      exact mem_segment_foldl.2 ⟨hc, fun _ => hp⟩
    have hlive := hv'.live n.id hcache
    rw [he, List.map_append, List.mem_append] at hlive
    have hseg : n.id ∈ (m.segment p q).map RangeNode.id := List.mem_map_of_mem hn
    rw [List.nodup_append] at hnodup
    rcases hlive with hlive | hlive
    · exact hnodup.2.2 _ hlive _ (List.mem_append_left _ hseg) rfl
    · exact (List.nodup_append.1 hnodup.2.1).2.2 _ hseg _ hlive rfl
  · intro hs
    have hsub : m'.cache.Sublist m.cache := by
      rw [he]
      exact segment_foldl_sublist
    refine ⟨fun c hc => ?_, hsub.length_le.trans hv.size, hv.nodup.sublist hsub⟩
    have hlive := hv.live c (hsub.subset hc)
    rw [← segment_split m p q, List.map_append, List.map_append] at hlive
    rw [he] at hc ⊢
    obtain ⟨hc, hp⟩ := mem_segment_foldl.1 hc
    rw [List.map_append, List.mem_append]
    rcases List.mem_append.1 hlive with hlive | hlive
    · rcases List.mem_append.1 hlive with hlive | hlive
      · exact Or.inl hlive
      · obtain ⟨n, hn, rfl⟩ := List.mem_map.1 hlive
        exact absurd (hs n hn hc) (hp (List.ne_nil_of_mem hn))
    · exact Or.inr hlive

/-! ## Runs -/

/-- The ranged erasures that leave no cached iterator behind. -/
def Op.LeavesCache (m : AddrRangeMap V) : Op V → Prop
  | .eraseRange p q => m.SegmentUncached p q
  | _ => True

theorem Finds.numbered (hm : Numbered m) (h : Finds maxCacheSize m r cond m' it) : Numbered m' := by
  obtain ⟨htree, hid⟩ := h.tree_eq
  exact hm.sublist (htree ▸ List.Sublist.refl _) hid

theorem step_numbered (hm : Numbered m) (h : m.step maxCacheSize op = .ok m') : Numbered m' := by
  cases op with
  | insert r d =>
    obtain ⟨⟨m₂, it⟩, hi, rfl⟩ := Run.map_eq_ok.1 h
    obtain ⟨m₁, hit, hf, ⟨-, rfl, -⟩ | ⟨-, rfl, -⟩⟩ := insert_cases hi
    · exact hf.numbered hm
    · exact treeInsert_numbered (hf.numbered hm) r d
  | contains r =>
    obtain ⟨⟨m₂, it⟩, hi, rfl⟩ := Run.map_eq_ok.1 h
    exact (find_cases hi).numbered hm
  | containsAddr a =>
    obtain ⟨⟨m₂, it⟩, hi, rfl⟩ := Run.map_eq_ok.1 h
    exact (find_cases hi).numbered hm
  | intersects r =>
    obtain ⟨⟨m₂, it⟩, hi, rfl⟩ := Run.map_eq_ok.1 h
    exact (find_cases hi).numbered hm
  | erase p =>
    rw [erase_eq_ok h]
    exact hm.sublist List.filter_sublist rfl
  | eraseRange p q => exact hm.sublist (eraseRange_sublist h) (by rw [eraseRange_eq_ok h])
  | clear =>
    cases h
    exact hm.sublist (List.nil_sublist _) rfl

theorem step_cacheValid_iff (hm : Numbered m) (hv : CacheValid maxCacheSize m) (h : m.step maxCacheSize op = .ok m') :
    CacheValid maxCacheSize m' ↔ op.LeavesCache m := by
  cases op with
  | insert r d =>
    obtain ⟨⟨m₂, it⟩, hi, rfl⟩ := Run.map_eq_ok.1 h
    refine iff_of_true ?_ trivial
    obtain ⟨m₁, hit, hf, ⟨-, rfl, -⟩ | ⟨-, rfl, -⟩⟩ := insert_cases hi
    · exact hf.cacheValid hm hv
    · exact treeInsert_cacheValid (hf.cacheValid hm hv) r d
  | contains r =>
    obtain ⟨⟨m₂, it⟩, hi, rfl⟩ := Run.map_eq_ok.1 h
    exact iff_of_true ((find_cases hi).cacheValid hm hv) trivial
  | containsAddr a =>
    obtain ⟨⟨m₂, it⟩, hi, rfl⟩ := Run.map_eq_ok.1 h
    exact iff_of_true ((find_cases hi).cacheValid hm hv) trivial
  | intersects r =>
    obtain ⟨⟨m₂, it⟩, hi, rfl⟩ := Run.map_eq_ok.1 h
    exact iff_of_true ((find_cases hi).cacheValid hm hv) trivial
  | erase p => exact iff_of_true (erase_cacheValid hv h) trivial
  | eraseRange p q => exact eraseRange_cacheValid_iff hm hv h
  | clear =>
    cases h
    exact iff_of_true ⟨by simp [clear], Nat.zero_le _, List.nodup_nil⟩ trivial

/-- The maps reached from the empty one by calls none of which is a ranged erasure that leaves a cached iterator
    behind. -/
inductive Reach (maxCacheSize : Nat) : AddrRangeMap V → Prop
  | empty : Reach maxCacheSize {}
  | step {m m' : AddrRangeMap V} (op : Op V) (h : Reach maxCacheSize m) (leaves : op.LeavesCache m)
      (hs : m.step maxCacheSize op = .ok m') : Reach maxCacheSize m'

theorem Reach.numbered (h : Reach maxCacheSize m) : Numbered m := by
  induction h with
  | empty => exact numbered_empty
  | step _ _ _ hs ih => exact step_numbered ih hs

theorem Reach.cacheValid (h : Reach maxCacheSize m) : CacheValid maxCacheSize m := by
  induction h with
  | empty => exact cacheValid_empty _
  | step _ h leaves hs ih => exact (step_cacheValid_iff h.numbered ih hs).2 leaves

/-- **The cache is valid up to the first ranged erasure of a cached entry other than the first of its segment**, and not
    after it. -/
theorem cache_valid_until_ranged_erase {maxCacheSize : Nat} {m : AddrRangeMap V} (h : Reach maxCacheSize m) :
    CacheValid maxCacheSize m ∧
      ∀ op m', m.step maxCacheSize op = .ok m' → (CacheValid maxCacheSize m' ↔ op.LeavesCache m) :=
  ⟨h.cacheValid, fun _ _ hs => step_cacheValid_iff h.numbered h.cacheValid hs⟩

def twoRanges : AddrRangeMap Unit where
  tree := [⟨0, rangeSize 0x1000 0x1000, ()⟩, ⟨1, rangeSize 0x2000 0x1000, ()⟩]
  cache := [1]
  nextId := 2

theorem reach_twoRanges : Reach 3 twoRanges := by
  have h₁ : Reach 3 (⟨[⟨0, rangeSize 0x1000 0x1000, ()⟩], [], 1⟩ : AddrRangeMap Unit) :=
    .step (.insert (rangeSize 0x1000 0x1000) ()) .empty trivial (by decide +kernel)
  have h₂ : Reach 3 { twoRanges with cache := [] } :=
    .step (.insert (rangeSize 0x2000 0x1000) ()) h₁ trivial (by decide +kernel)
  exact .step (.containsAddr 0x2040) h₂ trivial (by decide +kernel)

theorem cache_valid_twoRanges : CacheValid 3 twoRanges := (cache_valid_until_ranged_erase reach_twoRanges).1

/-- **The cache keeps an iterator to an erased entry**: `erase(begin(), end())` removes from the cache only the first
    entry it erases. -/
theorem ranged_erase_leaves_stale_iterator :
    Reach 3 twoRanges ∧ twoRanges.step 3 (.eraseRange (some 0) none) = .ok ⟨[], [1], 2⟩ ∧
      ¬ CacheValid 3 (⟨[], [1], 2⟩ : AddrRangeMap Unit) :=
  ⟨reach_twoRanges, by decide +kernel, fun h => by simpa using h.live 1 (by simp)⟩

end AddrRangeMap

end Gem5
