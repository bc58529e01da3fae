import Gem5Cxl.AddrRangeMapFind
import Gem5Cxl.AddrRangeOffset
/-!
# XbarMap — the address map of the crossbar (`mem/xbar.cc`)

Each memory-side port tells the crossbar its ranges, and may change them.  The crossbar keeps them in a range map, with
the range of the default port apart, and once every port has spoken it tells the other side what it covers.  A call
carries the list the port gives when asked.
-/
namespace Gem5

open Run (bind_eq_ok ok_bind)

namespace AddrRange

/-- The loop of the merging constructor; its counter is a `uint8_t`. -/
def checkMatches (first : AddrRange) : Nat → List AddrRange → Except Failure Unit
  | _, [] => .ok ()
  | expected, it :: rest => do
    panicIf (!first.mergesWith it) "Can only merge ranges with the same start, end and interleaving bits"
    panicIf (it.intlvMatch != expected) "Expected another interleave match when merging"
    checkMatches first ((expected + 1) % 256) rest

/-- The merging constructor: the whole span from all the stripes, or the single range. -/
def merge : List AddrRange → Except Failure AddrRange
  | [] => .ok { start := 1, end_ := 0 }
  | first :: rest =>
    if 0 < rest.length then do
      panicIf (rest.length + 1 != 2 ^ first.masks.length) "Got another number of ranges than the interleaving bits span"
      checkMatches first 0 (first :: rest)
      .ok { start := first.start, end_ := first.end_ }
    else .ok first

end AddrRange

structure XbarMap where
  useDefaultRange : Bool
  defaultPortID : Option Nat
  gotAddrRanges : List Bool
  gotAllAddrRanges : Bool := false
  defaultRange : AddrRange := { start := 1, end_ := 0 }
  portMap : AddrRangeMap Nat := {}
  xbarRanges : List AddrRange := []
deriving DecidableEq

namespace XbarMap

def create (useDefaultRange : Bool) (defaultPortID : Option Nat) (ports : Nat) : XbarMap :=
  { useDefaultRange := useDefaultRange, defaultPortID := defaultPortID, gotAddrRanges := List.replicate ports false }

def erasePort (port : Nat) (m : AddrRangeMap Nat) : Except Failure (AddrRangeMap Nat) :=
  m.tree.foldlM (fun m n => if n.value = port then m.erase n.id else .ok m) m

def insertRanges (port : Nat) : List AddrRange → AddrRangeMap Nat → Except Failure (AddrRangeMap Nat)
  | [], m => .ok m
  | r :: rs, m => do
    let (m, it) ← m.insert 3 r port
    match it with
    | none => .error (.panic "has two ports responding within range")
    | some _ => insertRanges port rs m

def keep (x : XbarMap) (r : AddrRange) : Except Failure (List AddrRange) :=
  if x.useDefaultRange then do
    let inside ← r.isSubset x.defaultRange
    .ok (if inside then [] else [r])
  else .ok [r]

def flush (x : XbarMap) (intlvRanges : List AddrRange) : Except Failure (List AddrRange) :=
  if intlvRanges = [] then .ok []
  else do
    let merged ← AddrRange.merge intlvRanges
    x.keep merged

def collect (x : XbarMap) : List AddrRange → List AddrRange → List AddrRange → Except Failure (List AddrRange)
  | [], intlvRanges, out => do
    let last ← x.flush intlvRanges
    .ok (out ++ last)
  | r :: rs, intlvRanges, out =>
    if r.interleaved then
      if intlvRanges.getLast?.any (fun back => !back.mergesWith r) then do
        let kept ← x.flush intlvRanges
        x.collect rs [r] (out ++ kept)
      else x.collect rs (intlvRanges ++ [r]) out
    else do
      let kept ← x.keep r
      x.collect rs intlvRanges (out ++ kept)

def checkDefault (x : XbarMap) : List AddrRange → Except Failure Unit
  | [] => .ok ()
  | r :: rs => do
    let meets ← r.intersects x.defaultRange
    if meets then do
      let inside ← r.isSubset x.defaultRange
      panicIf (!inside) "Range intersects the default range but is not a subset"
    x.checkDefault rs

def requireDefault (x : XbarMap) : Except Failure Unit :=
  match x.defaultPortID with
  | none => .error .outOfBounds
  | some d => panicIf (!x.gotAddrRanges.getD d false) "Crossbar uses default range, but none provided"

/-- The end of `recvRangeChange`, once ranges have come from all ports. -/
def aggregate (x : XbarMap) : Except Failure XbarMap := do
  if x.useDefaultRange then x.requireDefault
  let out ← x.collect (x.portMap.tree.map RangeNode.range) [] (if x.useDefaultRange then [x.defaultRange] else [])
  if x.useDefaultRange then x.checkDefault out
  .ok { x with xbarRanges := out }

/-- The middle of `recvRangeChange`: take over the ranges of the port. -/
def updateRanges (x : XbarMap) (port : Nat) (ranges : List AddrRange) : Except Failure XbarMap :=
  if some port = x.defaultPortID then
    if x.useDefaultRange then
      match ranges with
      | [r] => .ok { x with defaultRange := r }
      | _ => .error (.panic "Crossbar may only have a single default range")
    else .ok x
  else do
    let m ← erasePort port x.portMap
    let m ← insertRanges port ranges m
    .ok { x with portMap := m }

/-- `recvRangeChange`, with the list the port gives when asked. -/
def recvRangeChange (x : XbarMap) (port : Nat) (ranges : List AddrRange) : Except Failure XbarMap :=
  if x.gotAddrRanges.length ≤ port then .error .outOfBounds
  else do
    let got := x.gotAddrRanges.set port true
    let x := { x with gotAddrRanges := got, gotAllAddrRanges := x.gotAllAddrRanges || got.all id }
    let x ← x.updateRanges port ranges
    if x.gotAllAddrRanges then x.aggregate else .ok x

def getAddrRanges (x : XbarMap) : Except Failure (List AddrRange) := do
  assertThat x.gotAllAddrRanges
  .ok x.xbarRanges

def findPort (x : XbarMap) (r : AddrRange) : Except Failure (XbarMap × Nat) := do
  assertThat x.gotAllAddrRanges
  let (m, it) ← x.portMap.contains 3 r
  let x := { x with portMap := m }
  match it with
  | some i => do
    let n ← m.deref i
    .ok (x, n.value)
  | none =>
    match x.useDefaultRange, x.defaultPortID with
    | true, d => do
      let inside ← r.isSubset x.defaultRange
      match inside, d with
      | true, some d => .ok (x, d)
      | _, _ => .error (.panic "Unable to find destination")
    | false, some d => .ok (x, d)
    | false, none => .error (.panic "Unable to find destination")

/-! ## Merging interleaved ranges -/

open AddrRange AddrRangeMap

variable {l kept intlvRanges out res rs ranges : List AddrRange} {r : AddrRange} {x x' : XbarMap}
  {m m' : AddrRangeMap Nat} {p port ports : Nat} {lists : Nat → List AddrRange} {defaultPortID : Option Nat}
  {useDefaultRange : Bool} {a : Addr}

theorem checkMatches_ok {first : AddrRange} {k : Nat} {u : Unit} (hk : k < 256) (h : checkMatches first k l = .ok u) :
    ∀ i (hi : i < l.length), first.mergesWith l[i] = true ∧ l[i].intlvMatch = (k + i) % 256 := by
  induction l generalizing k with
  | nil =>
    intro i hi
    cases hi
  | cons it rest ih =>
    simp only [checkMatches, bind_eq_ok, panicIf_eq_ok] at h
    obtain ⟨_, hm, _, hmatch, h⟩ := h
    intro i hi
    cases i with
    | zero =>
      have hmatch : it.intlvMatch = k := by simpa using hmatch
      exact ⟨by simpa using hm, by rw [List.getElem_cons_zero, hmatch, Nat.add_zero, Nat.mod_eq_of_lt hk]⟩
    | succ i =>
      have hrest := ih (Nat.mod_lt _ (by omega)) h i (by simpa using hi)
      rw [List.getElem_cons_succ]
      exact ⟨hrest.1, by rw [hrest.2]; omega⟩

/-- **Merging stripes in their order keeps the addresses.** -/
theorem merge_contains {m : AddrRange} (hne : l ≠ []) (hinc : l.Pairwise (fun x y => x.intlvMatch < y.intlvMatch))
    (h : merge l = .ok m) (a : Addr) : m.contains a = true ↔ ∃ r ∈ l, r.contains a = true := by
  cases l with
  | nil => exact absurd rfl hne
  | cons first rest =>
    rw [merge] at h
    split at h
    · simp only [bind_eq_ok, panicIf_eq_ok] at h
      obtain ⟨_, hlen, _, hcheck, h⟩ := h
      cases h
      have hlen : rest.length + 1 = 2 ^ first.masks.length := by simpa using hlen
      have hmatch := checkMatches_ok (by omega) hcheck
      have hrest : 0 < rest.length := by assumption
      generalize hl : first :: rest = l at hmatch hinc
      have hll : l.length = 2 ^ first.masks.length := by rw [← hl, List.length_cons, hlen]
      -- the counter cannot wrap: stripe 256 would have match 0 after match 255
      have hsmall : l.length ≤ 256 := by
        by_contra hbig
        have hlt := List.pairwise_iff_getElem.1 hinc 255 256 (by omega) (by omega) (by omega)
        rw [(hmatch 255 (by omega)).2, (hmatch 256 (by omega)).2] at hlt
        omega
      constructor
      · intro hc
        obtain ⟨hs, he, -⟩ := contains_iff_span.1 hc
        have hsel : sel a first.masks < l.length := hll ▸ sel_lt a first.masks
        obtain ⟨hm, hv⟩ := hmatch _ hsel
        obtain ⟨hms, hme, hmm⟩ := mergesWith_iff.1 hm
        refine ⟨l[sel a first.masks], List.getElem_mem hsel, contains_iff_span.2 ⟨?_, ?_, ?_⟩⟩
        · rw [hms]
          exact hs
        · rw [hme]
          exact he
        · rw [hmm, hv]
          omega
      · rintro ⟨r, hr, hc⟩
        obtain ⟨i, hi, rfl⟩ := List.getElem_of_mem hr
        obtain ⟨hms, hme, -⟩ := mergesWith_iff.1 (hmatch i hi).1
        obtain ⟨hs, he, -⟩ := contains_iff_span.1 hc
        exact contains_iff_span.2 ⟨hms ▸ hs, hme ▸ he, rfl⟩
    · cases h
      have hnil : rest = [] := List.eq_nil_of_length_eq_zero (by omega)
      rw [hnil]
      simp

/-! ## What the crossbar tells on -/

def InDefault (x : XbarMap) (a : Addr) : Prop := x.useDefaultRange = true ∧ x.defaultRange.contains a = true

def Covers (l : List AddrRange) (a : Addr) : Prop := ∃ r ∈ l, r.contains a = true

@[simp] theorem covers_nil (a : Addr) : Covers [] a ↔ False := by simp [Covers]

theorem covers_cons (r : AddrRange) (l : List AddrRange) (a : Addr) :
    Covers (r :: l) a ↔ r.contains a = true ∨ Covers l a := by simp [Covers]

theorem covers_append (l l' : List AddrRange) (a : Addr) : Covers (l ++ l') a ↔ Covers l a ∨ Covers l' a := by
  simp [Covers, or_and_right, exists_or]

def PlainDefault (x : XbarMap) : Prop :=
  x.useDefaultRange = true → x.defaultRange.interleaved = false ∧ x.defaultRange.intlvMatch = 0

theorem keep_covers (hd : x.PlainDefault) (h : x.keep r = .ok kept) (a : Addr) :
    Covers kept a ∨ x.InDefault a ↔ r.contains a = true ∨ x.InDefault a := by
  unfold keep at h
  split at h
  · rename_i huse
    rw [bind_eq_ok] at h
    obtain ⟨inside, hin, h⟩ := h
    cases h
    cases inside with
    | false => simp [covers_cons]
    | true =>
      -- a range inside the default range adds nothing to it
      suffices hsub : r.contains a = true → x.InDefault a by
        simp only [if_true, covers_nil, false_or]
        exact ⟨Or.inr, fun hor => hor.elim hsub id⟩
      intro hc
      obtain ⟨hplain, hmatch⟩ := hd huse
      have hmasks : x.defaultRange.masks = [] := by simpa [interleaved] using hplain
      unfold isSubset at hin
      split at hin
      · cases hin
      · rw [hplain, if_neg (by simp)] at hin
        simp only [Except.ok.injEq, Bool.and_eq_true, decide_eq_true_eq] at hin
        obtain ⟨hs, he, -⟩ := contains_iff_span.1 hc
        refine ⟨huse, contains_iff_span.2 ⟨BitVec.le_trans hin.1 hs, Std.lt_of_lt_of_le he hin.2, ?_⟩⟩
        rw [hmasks, hmatch]
        rfl
  · cases h
    simp [covers_cons]

/-- The interleaved ranges that wait: stripes of one interleaving, in their order. -/
structure Waiting (l : List AddrRange) : Prop where
  stripes : ∀ r ∈ l, r.interleaved = true
  merge : ∀ r ∈ l, ∀ r' ∈ l, r.mergesWith r' = true

theorem Waiting.increasing (h : Waiting l) (ho : l.Pairwise Before) :
    l.Pairwise (fun x y => x.intlvMatch < y.intlvMatch) := by
  refine ho.imp_of_mem fun {x y} hx hy hb => ?_
  have hlt := hb.1
  rwa [lt_of_merges (h.stripes x hx) (h.merge x hx y hy), decide_eq_true_eq] at hlt

theorem waiting_singleton (hi : r.interleaved = true) : Waiting [r] := by
  refine ⟨?_, ?_⟩
  · intro x hx
    rw [List.mem_singleton.1 hx]
    exact hi
  · intro x hx y hy
    rw [List.mem_singleton.1 hx, List.mem_singleton.1 hy, mergesWith_iff]
    exact ⟨rfl, rfl, rfl⟩

theorem Waiting.append (h : Waiting l) (hi : r.interleaved = true)
    (hlast : l.getLast?.any (fun back => !back.mergesWith r) = false) : Waiting (l ++ [r]) := by
  have hall : ∀ x ∈ l, x.mergesWith r = true := by
    intro x hx
    have hne := List.ne_nil_of_mem hx
    rw [List.getLast?_eq_some_getLast hne] at hlast
    have hm : (l.getLast hne).mergesWith r = true := by simpa using hlast
    exact mergesWith_trans (h.merge x hx _ (List.getLast_mem hne)) hm
  refine ⟨fun x hx => ?_, fun x hx y hy => ?_⟩
  · rcases List.mem_append.1 hx with hx | hx
    · exact h.stripes x hx
    · exact List.mem_singleton.1 hx ▸ hi
  · rcases List.mem_append.1 hx with hx | hx <;> rcases List.mem_append.1 hy with hy | hy
    · exact h.merge x hx y hy
    · exact List.mem_singleton.1 hy ▸ hall x hx
    · exact List.mem_singleton.1 hx ▸ mergesWith_symm (hall y hy)
    · rw [List.mem_singleton.1 hx, List.mem_singleton.1 hy, mergesWith_iff]
      exact ⟨rfl, rfl, rfl⟩

theorem flush_covers (hd : x.PlainDefault) (hw : Waiting l) (ho : l.Pairwise Before) (h : x.flush l = .ok kept)
    (a : Addr) : Covers kept a ∨ x.InDefault a ↔ Covers l a ∨ x.InDefault a := by
  unfold flush at h
  split at h
  · rename_i hnil
    cases h
    rw [hnil]
  · rename_i hne
    rw [bind_eq_ok] at h
    obtain ⟨merged, hm, h⟩ := h
    rw [keep_covers hd h, merge_contains hne (hw.increasing ho) hm]
    rfl

/-- **The ranges told on cover what the map and the default range cover.** -/
theorem collect_covers (hd : x.PlainDefault) (hw : Waiting intlvRanges) (ho : (intlvRanges ++ rs).Pairwise Before)
    (h : x.collect rs intlvRanges out = .ok res) (a : Addr) :
    Covers res a ∨ x.InDefault a ↔ Covers out a ∨ Covers intlvRanges a ∨ Covers rs a ∨ x.InDefault a := by
  induction rs generalizing intlvRanges out with
  | nil =>
    simp only [collect, bind_eq_ok] at h
    obtain ⟨last, hf, h⟩ := h
    cases h
    rw [List.append_nil] at ho
    have hflush := flush_covers hd hw ho hf a
    rw [covers_append, covers_nil]
    grind only
  | cons r rs ih =>
    rw [collect] at h
    split at h
    · rename_i hi
      split at h
      · rw [bind_eq_ok] at h
        obtain ⟨kept, hf, h⟩ := h
        have hflush := flush_covers hd hw (ho.sublist (List.sublist_append_left _ _)) hf a
        rw [ih (waiting_singleton hi) (ho.sublist (List.sublist_append_right _ _)) h, covers_append, covers_cons,
          covers_cons, covers_nil]
        grind only
      · rename_i hlast
        rw [Bool.not_eq_true] at hlast
        rw [ih (hw.append hi hlast) (by rwa [List.append_assoc]) h, covers_append, covers_cons, covers_cons, covers_nil]
        grind only
    · rw [bind_eq_ok] at h
      obtain ⟨kept, hk, h⟩ := h
      have hkeep := keep_covers hd hk a
      rw [ih hw (ho.sublist ((List.sublist_cons_self r rs).append_left _)) h, covers_append, covers_cons]
      grind only

/-! ## The entries of a port -/

theorem Searchable.erase (hm : Searchable 3 m) (h : m.erase p = .ok m') : Searchable 3 m' := by
  have htree : m'.tree.Sublist m.tree := by
    rw [erase_eq_ok h]
    exact List.filter_sublist
  exact hm.sublist (hm.numbered.sublist htree (by rw [erase_eq_ok h])) (erase_cacheValid hm.cache h) htree

theorem foldlM_erase {l : List (RangeNode Nat)} (hm : Searchable 3 m)
    (hl : ∀ x ∈ m.tree, ∀ n ∈ l, x.id = n.id → x = n)
    (h : l.foldlM (fun m n => if n.value = port then m.erase n.id else .ok m) m = .ok m') :
    Searchable 3 m' ∧ ∀ n, n ∈ m'.tree ↔ n ∈ m.tree ∧ ¬ (n ∈ l ∧ n.value = port) := by
  induction l generalizing m with
  | nil =>
    cases h
    exact ⟨hm, by simp⟩
  | cons n l ih =>
    rw [List.foldlM_cons, bind_eq_ok] at h
    obtain ⟨m₁, h₁, h⟩ := h
    split at h₁
    · rename_i hport
      have htree : ∀ x, x ∈ m₁.tree ↔ x ∈ m.tree ∧ x.id ≠ n.id := by
        intro x
        rw [erase_eq_ok h₁, List.mem_filter, bne_iff_ne]
      obtain ⟨hs, hmem⟩ := ih (Searchable.erase hm h₁)
        (fun x hx y hy => hl x ((htree x).1 hx).1 y (List.mem_cons_of_mem _ hy)) h
      refine ⟨hs, fun x => ?_⟩
      rw [hmem, htree, List.mem_cons]
      constructor
      · rintro ⟨⟨hx, hid⟩, hno⟩
        refine ⟨hx, ?_⟩
        rintro ⟨rfl | hxl, hv⟩
        · exact hid rfl
        · exact hno ⟨hxl, hv⟩
      · rintro ⟨hx, hno⟩
        refine ⟨⟨hx, fun hid => ?_⟩, fun hxl => hno ⟨Or.inr hxl.1, hxl.2⟩⟩
        have heq := hl x hx n List.mem_cons_self hid
        exact hno ⟨Or.inl heq, heq ▸ hport⟩
    · rename_i hport
      cases h₁
      obtain ⟨hs, hmem⟩ := ih hm (fun x hx y hy => hl x hx y (List.mem_cons_of_mem _ hy)) h
      refine ⟨hs, fun x => ?_⟩
      rw [hmem, List.mem_cons]
      constructor
      · rintro ⟨hx, hno⟩
        refine ⟨hx, ?_⟩
        rintro ⟨rfl | hxl, hv⟩
        · exact hport hv
        · exact hno ⟨hxl, hv⟩
      · rintro ⟨hx, hno⟩
        exact ⟨hx, fun hxl => hno ⟨Or.inr hxl.1, hxl.2⟩⟩

theorem erasePort_entries (hm : Searchable 3 m) (h : erasePort port m = .ok m') :
    Searchable 3 m' ∧ ∀ n, n ∈ m'.tree ↔ n ∈ m.tree ∧ n.value ≠ port := by
  obtain ⟨hs, hmem⟩ := foldlM_erase hm (fun x hx n hn hid => hm.numbered.inj hx hn hid) h
  refine ⟨hs, fun n => (hmem n).trans ⟨fun hn => ⟨hn.1, fun hv => hn.2 ⟨hn.1, hv⟩⟩, fun hn => ⟨hn.1, fun hp => hn.2 hp.2⟩⟩⟩

def Holds (m : AddrRangeMap Nat) (r : AddrRange) (port : Nat) : Prop := ∃ n ∈ m.tree, n.range = r ∧ n.value = port

/-- A list a port may give: of non-empty spans, and such that the intersection test is not misled by a range of a single
    address under an interleaved one. -/
structure Fits (m : AddrRangeMap Nat) (port : Nat) (ranges : List AddrRange) : Prop where
  span : ∀ r ∈ ranges, r.start < r.end_
  sound : ∀ r ∈ ranges, Sound r
  others : ∀ r ∈ ranges, ∀ n ∈ m.tree, n.value ≠ port → r.NotUnit n.range
  own : ∀ r ∈ ranges, ∀ r' ∈ ranges, r.NotUnit r'

theorem insertRanges_entries (hm : Searchable 3 m) (hspan : ∀ r ∈ ranges, r.start < r.end_)
    (hsound : ∀ r ∈ ranges, Sound r) (hu : ∀ r ∈ ranges, ∀ n ∈ m.tree, r.NotUnit n.range)
    (hown : ∀ r ∈ ranges, ∀ r' ∈ ranges, r.NotUnit r') (h : insertRanges port ranges m = .ok m') :
    Searchable 3 m' ∧ ∀ r p, Holds m' r p ↔ Holds m r p ∨ (p = port ∧ r ∈ ranges) := by
  induction ranges generalizing m with
  | nil =>
    cases h
    exact ⟨hm, by simp⟩
  | cons r rs ih =>
    rw [List.forall_mem_cons] at hspan hsound
    rw [insertRanges, bind_eq_ok] at h
    obtain ⟨⟨m₁, it⟩, hi, h⟩ := h
    cases it with
    | none => cases h
    | some it =>
      obtain ⟨hs, -, hperm, -⟩ := hm.insert hspan.1 hsound.1 (hu r List.mem_cons_self) hi
      have hu' : ∀ r' ∈ rs, ∀ n ∈ m₁.tree, r'.NotUnit n.range := by
        intro r' hr' n hn
        rcases List.mem_cons.1 (hperm.mem_iff.1 hn) with rfl | hn
        · exact hown r' (List.mem_cons_of_mem _ hr') r List.mem_cons_self
        · exact hu r' (List.mem_cons_of_mem _ hr') n hn
      have hown' : ∀ r' ∈ rs, ∀ r'' ∈ rs, r'.NotUnit r'' := fun r' hr' r'' hr'' =>
        hown r' (List.mem_cons_of_mem _ hr') r'' (List.mem_cons_of_mem _ hr'')
      obtain ⟨hs', hholds⟩ := ih hs hspan.2 hsound.2 hu' hown' h
      have hadd : ∀ r' p, Holds m₁ r' p ↔ Holds m r' p ∨ (p = port ∧ r' = r) := by
        intro r' p
        unfold Holds
        simp only [hperm.mem_iff, List.exists_mem_cons_iff]
        constructor
        · rintro (⟨rfl, rfl⟩ | hn)
          · exact Or.inr ⟨rfl, rfl⟩
          · exact Or.inl hn
        · rintro (hn | ⟨rfl, rfl⟩)
          · exact Or.inr hn
          · exact Or.inl ⟨rfl, rfl⟩
      refine ⟨hs', fun r' p => ?_⟩
      rw [hholds, hadd, List.mem_cons]
      grind only

/-- **The entries after a port gave its list**: those of the other ports, and the list. -/
theorem port_entries {m₁ : AddrRangeMap Nat} (hm : Searchable 3 m) (hf : Fits m port ranges)
    (he : erasePort port m = .ok m₁) (hi : insertRanges port ranges m₁ = .ok m') :
    Searchable 3 m' ∧ ∀ r p, Holds m' r p ↔ if p = port then r ∈ ranges else Holds m r p := by
  obtain ⟨hs, hmem⟩ := erasePort_entries hm he
  have hu : ∀ r ∈ ranges, ∀ n ∈ m₁.tree, r.NotUnit n.range := fun r hr n hn =>
    hf.others r hr n ((hmem n).1 hn).1 ((hmem n).1 hn).2
  obtain ⟨hs', hholds⟩ := insertRanges_entries hs hf.span hf.sound hu hf.own hi
  have herased : ∀ r p, Holds m₁ r p ↔ Holds m r p ∧ p ≠ port := by
    intro r p
    unfold Holds
    simp only [hmem]
    constructor
    · rintro ⟨n, ⟨hn, hv⟩, rfl, rfl⟩
      exact ⟨⟨n, hn, rfl, rfl⟩, hv⟩
    · rintro ⟨⟨n, hn, rfl, rfl⟩, hv⟩
      exact ⟨n, ⟨hn, hv⟩, rfl, rfl⟩
  refine ⟨hs', fun r p => ?_⟩
  rw [hholds, herased]
  split
  · rename_i hp
    simp [hp]
  · rename_i hp
    simp [hp]

/-! ## Runs -/

structure Sys where
  xbar : XbarMap
  lists : Nat → List AddrRange

inductive Call where
  | rangeChange (port : Nat) (ranges : List AddrRange)
  | findPort (r : AddrRange)

def Sys.step (s : Sys) : Call → Except Failure Sys
  | .rangeChange port ranges => do
    let x ← s.xbar.recvRangeChange port ranges
    .ok { xbar := x, lists := fun p => if p = port then ranges else s.lists p }
  | .findPort r => do
    let (x, _) ← s.xbar.findPort r
    .ok { s with xbar := x }

/-- The calls considered: the default port gives plain ranges, the other ports lists that fit. -/
def Call.Fits (s : Sys) : Call → Prop
  | .rangeChange port ranges =>
    if some port = s.xbar.defaultPortID then ∀ r ∈ ranges, r.interleaved = false ∧ r.intlvMatch = 0
    else XbarMap.Fits s.xbar.portMap port ranges
  | .findPort _ => True

def Sys.PortCovers (s : Sys) (port : Nat) (a : Addr) : Prop := some port ≠ s.xbar.defaultPortID ∧ Covers (s.lists port) a

def Sys.DefaultCovers (s : Sys) (port : Nat) (a : Addr) : Prop :=
  s.xbar.useDefaultRange = true ∧ some port = s.xbar.defaultPortID ∧ Covers (s.lists port) a

/-- **The map holds the current lists**, and what was told on is what they cover. -/
structure Sys.Consistent (s : Sys) : Prop where
  map : Searchable 3 s.xbar.portMap
  holds : ∀ r p, Holds s.xbar.portMap r p ↔ some p ≠ s.xbar.defaultPortID ∧ r ∈ s.lists p
  plain : s.xbar.PlainDefault
  default : s.xbar.useDefaultRange = true → ∀ d, s.xbar.defaultPortID = some d →
    s.xbar.gotAddrRanges.getD d false = true → s.lists d = [s.xbar.defaultRange]
  told : s.xbar.gotAllAddrRanges = true →
    (s.xbar.useDefaultRange = true → ∃ d, s.xbar.defaultPortID = some d ∧ s.xbar.gotAddrRanges.getD d false = true) ∧
    ∀ a, Covers s.xbar.xbarRanges a ↔ (∃ p, s.PortCovers p a) ∨ ∃ d, s.DefaultCovers d a

theorem consistent_create (useDefaultRange : Bool) (defaultPortID : Option Nat) (ports : Nat) :
    Sys.Consistent ⟨create useDefaultRange defaultPortID ports, fun _ => []⟩ where
  map := searchable_empty 3
  holds := by simp [Holds, create]
  plain := fun _ => ⟨rfl, rfl⟩
  default := by
    intro _ d _ hgot
    simp only [create, List.getD_eq_getElem?_getD, List.getElem?_replicate] at hgot
    split at hgot <;> cases hgot
  told := fun h => by cases h

theorem updateRanges_default (hp : some port = x.defaultPortID) (h : x.updateRanges port ranges = .ok x') :
    (x.useDefaultRange = true ∧ ∃ r, ranges = [r] ∧ x' = { x with defaultRange := r }) ∨
      (x.useDefaultRange = false ∧ x' = x) := by
  unfold updateRanges at h
  rw [if_pos hp] at h
  split at h
  · rename_i huse
    split at h
    · rename_i r
      cases h
      exact Or.inl ⟨huse, r, rfl, rfl⟩
    · cases h
  · rename_i huse
    cases h
    exact Or.inr ⟨by simpa using huse, rfl⟩

theorem updateRanges_port (hp : some port ≠ x.defaultPortID) (h : x.updateRanges port ranges = .ok x') :
    ∃ m₁ m', erasePort port x.portMap = .ok m₁ ∧ insertRanges port ranges m₁ = .ok m' ∧ x' = { x with portMap := m' } := by
  unfold updateRanges at h
  rw [if_neg hp, bind_eq_ok] at h
  obtain ⟨m₁, he, h⟩ := h
  rw [bind_eq_ok] at h
  obtain ⟨m', hi, h⟩ := h
  cases h
  exact ⟨m₁, m', he, hi, rfl⟩

theorem aggregate_eq_ok (h : x.aggregate = .ok x') :
    (x.useDefaultRange = true → ∃ d, x.defaultPortID = some d ∧ x.gotAddrRanges.getD d false = true) ∧
    ∃ out, x.collect (x.portMap.tree.map RangeNode.range) [] (if x.useDefaultRange then [x.defaultRange] else []) =
      .ok out ∧ x' = { x with xbarRanges := out } := by
  unfold aggregate at h
  cases huse : x.useDefaultRange with
  | false =>
    simp only [huse, Bool.false_eq_true, if_false, bind_eq_ok] at h
    obtain ⟨out, hc, h⟩ := h
    cases h
    exact ⟨fun hf => (by cases hf), out, hc, rfl⟩
  | true =>
    simp only [huse, if_true, bind_eq_ok] at h
    obtain ⟨_, hdef, out, hc, _, _, h⟩ := h
    cases h
    refine ⟨fun _ => ?_, out, hc, by rw [← huse]⟩
    unfold requireDefault at hdef
    split at hdef
    · cases hdef
    · rename_i d hd
      exact ⟨d, hd, by simpa using panicIf_eq_ok.1 hdef⟩

theorem collect_extends (h : x.collect rs intlvRanges out = .ok res) : ∃ more, res = out ++ more := by
  induction rs generalizing intlvRanges out with
  | nil =>
    simp only [collect, bind_eq_ok] at h
    obtain ⟨last, -, h⟩ := h
    cases h
    exact ⟨last, rfl⟩
  | cons r rs ih =>
    -- a flush or a kept range extends what is there
    have extend : ∀ {kept more}, res = out ++ kept ++ more → ∃ more, res = out ++ more := fun he =>
      ⟨_, he.trans (List.append_assoc _ _ _)⟩
    rw [collect] at h
    split at h
    · split at h
      · rw [bind_eq_ok] at h
        obtain ⟨kept, -, h⟩ := h
        obtain ⟨more, he⟩ := ih h
        exact extend he
      · exact ih h
    · rw [bind_eq_ok] at h
      obtain ⟨kept, -, h⟩ := h
      obtain ⟨more, he⟩ := ih h
      exact extend he

theorem aggregate_covers (hs : Searchable 3 x.portMap) (hd : x.PlainDefault) (h : x.aggregate = .ok x') (a : Addr) :
    Covers x'.xbarRanges a ↔ Covers (x.portMap.tree.map RangeNode.range) a ∨ x.InDefault a := by
  obtain ⟨-, out, hc, rfl⟩ := aggregate_eq_ok h
  have horder : (x.portMap.tree.map RangeNode.range).Pairwise Before := List.pairwise_map.2 hs.laid.order
  have hcov := collect_covers hd (⟨by simp, by simp⟩ : Waiting []) (by simpa using horder) hc a
  have hfirst : Covers (if x.useDefaultRange then [x.defaultRange] else []) a ↔ x.InDefault a := by
    unfold InDefault
    split
    · rename_i huse
      simp [covers_cons, huse]
    · rename_i huse
      simp [huse]
  have hin : x.InDefault a → Covers out a := by
    intro hdef
    obtain ⟨more, rfl⟩ := collect_extends hc
    exact (covers_append _ _ a).2 (Or.inl (hfirst.2 hdef))
  rw [hfirst, covers_nil] at hcov
  grind only

/-- The state between taking over the ranges and telling them on. -/
structure Updated (x : XbarMap) (lists : Nat → List AddrRange) : Prop where
  map : Searchable 3 x.portMap
  holds : ∀ r p, Holds x.portMap r p ↔ some p ≠ x.defaultPortID ∧ r ∈ lists p
  plain : x.PlainDefault
  default : x.useDefaultRange = true → ∀ d, x.defaultPortID = some d →
    x.gotAddrRanges.getD d false = true → lists d = [x.defaultRange]

theorem Updated.aggregate (hu : Updated x lists) (h : x.aggregate = .ok x') : Sys.Consistent ⟨x', lists⟩ := by
  have hcov := aggregate_covers hu.map hu.plain h
  obtain ⟨hgot, out, hc, rfl⟩ := aggregate_eq_ok h
  refine ⟨hu.map, hu.holds, hu.plain, hu.default, fun _ => ⟨hgot, fun a => (hcov a).trans ?_⟩⟩
  refine or_congr ⟨?_, ?_⟩ ⟨?_, ?_⟩
  · rintro ⟨r, hr, hra⟩
    obtain ⟨n, hn, rfl⟩ := List.mem_map.1 hr
    obtain ⟨hp, hmem⟩ := (hu.holds n.range n.value).1 ⟨n, hn, rfl, rfl⟩
    exact ⟨n.value, hp, n.range, hmem, hra⟩
  · rintro ⟨p, hp, r, hr, hra⟩
    obtain ⟨n, hn, rfl, -⟩ := (hu.holds r p).2 ⟨hp, hr⟩
    exact ⟨n.range, List.mem_map_of_mem hn, hra⟩
  · rintro ⟨huse, hda⟩
    obtain ⟨d, hd, hg⟩ := hgot huse
    refine ⟨d, huse, hd.symm, x.defaultRange, ?_, hda⟩
    change x.defaultRange ∈ lists d
    rw [hu.default huse d hd hg]
    exact List.mem_singleton_self _
  · rintro ⟨d, huse, hd, r, hr, hra⟩
    obtain ⟨d', hd', hg⟩ := hgot huse
    have hdd : some d = some d' := hd.trans hd'
    cases hdd
    change r ∈ lists d at hr
    rw [hu.default huse d hd' hg, List.mem_singleton] at hr
    exact ⟨huse, hr ▸ hra⟩

variable {s : Sys}

theorem Sys.Consistent.update (h : s.Consistent) (hf : (Call.rangeChange port ranges).Fits s) (got : List Bool)
    (all : Bool) (hgot : got = s.xbar.gotAddrRanges.set port true)
    (hup : { s.xbar with gotAddrRanges := got, gotAllAddrRanges := all }.updateRanges port ranges = .ok x') :
    Updated x' (fun p => if p = port then ranges else s.lists p) ∧ x'.gotAllAddrRanges = all := by
  have hother : ∀ d, d ≠ port → got.getD d false = s.xbar.gotAddrRanges.getD d false := by
    intro d hd
    rw [hgot, List.getD_eq_getElem?_getD, List.getElem?_set_ne (Ne.symm hd), List.getD_eq_getElem?_getD]
  by_cases hp : some port = s.xbar.defaultPortID
  · have hholds : ∀ r p, Holds s.xbar.portMap r p ↔
        some p ≠ s.xbar.defaultPortID ∧ r ∈ (if p = port then ranges else s.lists p) := by
      intro r p
      rw [h.holds]
      by_cases hpp : p = port
      · simp [hpp, hp]
      · rw [if_neg hpp]
    rw [Call.Fits, if_pos hp] at hf
    rcases updateRanges_default (by exact hp) hup with ⟨huse, r, rfl, rfl⟩ | ⟨huse, rfl⟩
    · refine ⟨⟨h.map, hholds, fun _ => hf r (List.mem_singleton_self r), ?_⟩, rfl⟩
      intro _ d hd _
      have hdp : some d = some port := hd.symm.trans hp.symm
      cases hdp
      exact if_pos rfl
    · refine ⟨⟨h.map, hholds, h.plain, fun hu => ?_⟩, rfl⟩
      exact absurd (huse.symm.trans hu) Bool.false_ne_true
  · rw [Call.Fits, if_neg hp] at hf
    obtain ⟨m₁, m', he, hi, rfl⟩ := updateRanges_port (by exact hp) hup
    obtain ⟨hs, hholds⟩ := port_entries h.map hf he hi
    refine ⟨⟨hs, fun r p => ?_, h.plain, fun hu d hd hg => ?_⟩, rfl⟩
    · refine (hholds r p).trans ?_
      by_cases hpp : p = port
      · rw [if_pos hpp, if_pos hpp, hpp]
        exact ⟨fun hr => ⟨hp, hr⟩, And.right⟩
      · rw [if_neg hpp, if_neg hpp]
        exact h.holds r p
    · have hdp : d ≠ port := fun heq => hp (heq ▸ hd).symm
      have hg' : s.xbar.gotAddrRanges.getD d false = true := (hother d hdp).symm.trans hg
      exact (if_neg hdp).trans (h.default hu d hd hg')

theorem findPort_map (h : x.findPort r = .ok (x', p)) :
    ∃ m it, x.portMap.contains 3 r = .ok (m, it) ∧ x' = { x with portMap := m } := by
  unfold findPort at h
  rw [bind_eq_ok] at h
  obtain ⟨_, _, h⟩ := h
  rw [bind_eq_ok] at h
  obtain ⟨⟨m, it⟩, hc, h⟩ := h
  refine ⟨m, it, hc, ?_⟩
  cases it with
  | some i =>
    dsimp only at h
    rw [bind_eq_ok] at h
    obtain ⟨n, _, h⟩ := h
    cases h
    rfl
  | none =>
    dsimp only at h
    split at h
    · rw [bind_eq_ok] at h
      obtain ⟨inside, _, h⟩ := h
      split at h
      · cases h
        rfl
      · cases h
    · cases h
      rfl
    · cases h

theorem Sys.step_consistent {s' : Sys} {c : Call} (h : s.Consistent) (hf : c.Fits s) (hs : s.step c = .ok s') :
    s'.Consistent := by
  cases c with
  | rangeChange port ranges =>
    unfold Sys.step at hs
    rw [bind_eq_ok] at hs
    obtain ⟨x, hx, hs⟩ := hs
    cases hs
    unfold recvRangeChange at hx
    split at hx
    · cases hx
    · dsimp only at hx
      rw [bind_eq_ok] at hx
      obtain ⟨x₁, hup, hx⟩ := hx
      obtain ⟨hu, hall⟩ := h.update hf _ _ rfl hup
      split at hx
      · exact hu.aggregate hx
      · rename_i hno
        cases hx
        exact ⟨hu.map, hu.holds, hu.plain, hu.default, fun hyes => absurd hyes hno⟩
  | findPort r =>
    unfold Sys.step at hs
    rw [bind_eq_ok] at hs
    obtain ⟨⟨x, p⟩, hx, hs⟩ := hs
    cases hs
    obtain ⟨m, it, hc, rfl⟩ := findPort_map hx
    have hfinds := find_cases hc
    have htree := hfinds.tree_eq.1
    have hm : Searchable 3 m := h.map.sublist (hfinds.numbered h.map.numbered)
      (hfinds.cacheValid h.map.numbered h.map.cache) (by rw [htree])
    refine ⟨hm, fun r p => ?_, h.plain, h.default, h.told⟩
    rw [← h.holds]
    unfold Holds
    rw [htree]

inductive Reach (useDefaultRange : Bool) (defaultPortID : Option Nat) (ports : Nat) : Sys → Prop
  | create : Reach useDefaultRange defaultPortID ports ⟨create useDefaultRange defaultPortID ports, fun _ => []⟩
  | step {s s' : Sys} (c : Call) (h : Reach useDefaultRange defaultPortID ports s) (fits : c.Fits s)
      (hs : s.step c = .ok s') : Reach useDefaultRange defaultPortID ports s'

theorem Reach.consistent (h : Reach useDefaultRange defaultPortID ports s) : s.Consistent := by
  induction h with
  | create => exact consistent_create _ _ _
  | step _ _ fits hs ih => exact Sys.step_consistent ih fits hs

/-! ## Finding a port -/

theorem ne_last_of_covers (h : Covers l a) : a ≠ -1 := by
  obtain ⟨r, -, hr⟩ := h
  have he := (contains_iff_span.1 hr).2.1
  bv_omega

theorem Sys.Consistent.findPort_of_covers (h : s.Consistent) (hall : s.xbar.gotAllAddrRanges = true)
    (hp : s.PortCovers p a) : ∃ x', s.xbar.findPort (rangeSize a 1) = .ok (x', p) := by
  have hlast := ne_last_of_covers hp.2
  obtain ⟨hd, r, hr, hra⟩ := hp
  obtain ⟨n, hn, rfl, rfl⟩ := (h.holds r p).2 ⟨hd, hr⟩
  obtain ⟨m', hc, htree, hm'⟩ := h.map.containsAddr (a := a) fun hl => absurd hl hlast
  have hfind : s.xbar.portMap.tree.find? (fun n => n.range.contains a) = some n := by
    cases hf : s.xbar.portMap.tree.find? (fun n => n.range.contains a) with
    | none => exact absurd hra (List.find?_eq_none.1 hf n hn)
    | some n' =>
      have hra' : n'.range.contains a = true := List.find?_some (p := fun n : RangeNode Nat => n.range.contains a) hf
      rw [h.map.laid.unique (List.mem_of_find?_eq_some hf) hn hra' hra]
  rw [hfind] at hc
  unfold findPort
  rw [hall, assertThat_true, ok_bind, show s.xbar.portMap.contains 3 (rangeSize a 1) = _ from hc, ok_bind]
  dsimp only [Option.map]
  rw [hm'.numbered.deref (htree ▸ hn), ok_bind]
  exact ⟨_, rfl⟩

theorem Sys.Consistent.findPort_default (h : s.Consistent) (hall : s.xbar.gotAllAddrRanges = true) {d : Nat}
    (hd : s.DefaultCovers d a) (hno : ∀ p, ¬ s.PortCovers p a) :
    ∃ x', s.xbar.findPort (rangeSize a 1) = .ok (x', d) := by
  have hlast := ne_last_of_covers hd.2.2
  obtain ⟨huse, hid, r, hr, hra⟩ := hd
  obtain ⟨d', hd', hg⟩ := (h.told hall).1 huse
  cases hid.trans hd'
  rw [h.default huse d hd' hg, List.mem_singleton] at hr
  obtain ⟨m', hc, htree, hm'⟩ := h.map.containsAddr (a := a) fun hl => absurd hl hlast
  have hfind : s.xbar.portMap.tree.find? (fun n => n.range.contains a) = none := by
    refine List.find?_eq_none.2 fun n hn hna => ?_
    obtain ⟨hp, hmem⟩ := (h.holds n.range n.value).1 ⟨n, hn, rfl, rfl⟩
    exact hno n.value ⟨hp, n.range, hmem, hna⟩
  rw [hfind] at hc
  have hin : (rangeSize a 1).isSubset s.xbar.defaultRange = .ok true := by
    obtain ⟨hplain, hmatch⟩ := h.plain huse
    rw [rangeSize_one_isSubset (fun _ => ⟨hmatch, hlast⟩) (fun hi => by rw [hplain] at hi; cases hi), ← hr, hra]
  unfold findPort
  rw [hall, assertThat_true, ok_bind, show s.xbar.portMap.contains 3 (rangeSize a 1) = _ from hc, ok_bind]
  simp only [Option.map, huse, hd', hin, ok_bind]
  exact ⟨_, rfl⟩

/-- **The address map is consistent under range changes.**  Once ranges have come from all ports, what the crossbar tells
    on and where it sends an address are given by the current lists of the ports. -/
theorem address_map_consistent {useDefaultRange : Bool} {defaultPortID : Option Nat} {ports : Nat} {s : Sys}
    (h : Reach useDefaultRange defaultPortID ports s) (hall : s.xbar.gotAllAddrRanges = true) :
    (∃ l, s.xbar.getAddrRanges = .ok l ∧ ∀ a, Covers l a ↔ (∃ p, s.PortCovers p a) ∨ ∃ d, s.DefaultCovers d a) ∧
    ∀ a, (∀ p, s.PortCovers p a → ∃ x', s.xbar.findPort (rangeSize a 1) = .ok (x', p)) ∧
      ∀ d, s.DefaultCovers d a → (∀ p, ¬ s.PortCovers p a) → ∃ x', s.xbar.findPort (rangeSize a 1) = .ok (x', d) := by
  have hc := h.consistent
  refine ⟨⟨s.xbar.xbarRanges, ?_, (hc.told hall).2⟩, fun a => ⟨fun p hp => hc.findPort_of_covers hall hp,
    fun d hd hno => hc.findPort_default hall hd hno⟩⟩
  rw [getAddrRanges, hall]
  rfl

def onePage : XbarMap where
  useDefaultRange := true
  defaultPortID := some 1
  gotAddrRanges := [true, true]
  gotAllAddrRanges := true
  defaultRange := rangeSize 0 0x10000
  portMap := { tree := [⟨0, rangeSize 0x1000 0x1000, 0⟩], nextId := 1 }
  xbarRanges := [rangeSize 0 0x10000]

theorem Reach.rangeChange (h : Reach useDefaultRange defaultPortID ports ⟨x, lists⟩)
    (fits : (Call.rangeChange port ranges).Fits ⟨x, lists⟩) (hx : x.recvRangeChange port ranges = .ok x') :
    Reach useDefaultRange defaultPortID ports ⟨x', fun p => if p = port then ranges else lists p⟩ := by
  refine .step (.rangeChange port ranges) h fits ?_
  rw [Sys.step, hx]
  rfl

theorem reach_onePage : ∃ lists, Reach true (some 1) 2 ⟨onePage, lists⟩ ∧ lists 0 = [rangeSize 0x1000 0x1000] := by
  have hpage : Fits {} 0 [rangeSize 0x1000 0x1000] := by
    refine ⟨by decide, ?_, by simp, ?_⟩
    · exact List.forall_mem_singleton.2 ⟨fun _ => rfl, fun hi => absurd hi (by decide)⟩
    · exact List.forall_mem_singleton.2 (List.forall_mem_singleton.2 fun _ hi => absurd hi (by decide))
  have hdefault : ∀ r ∈ [rangeSize 0 0x10000], r.interleaved = false ∧ r.intlvMatch = 0 := by decide
  have hx₁ : (create true (some 1) 2).recvRangeChange 0 [rangeSize 0x1000 0x1000] = .ok { create true (some 1) 2 with
      gotAddrRanges := [true, false], portMap := onePage.portMap } := by decide +kernel
  have hx₂ : { create true (some 1) 2 with gotAddrRanges := [true, false], portMap := onePage.portMap }.recvRangeChange 1
      [rangeSize 0 0x10000] = .ok onePage := by decide +kernel
  exact ⟨_, Reach.rangeChange (Reach.rangeChange .create (by exact hpage) hx₁) (by exact hdefault) hx₂, rfl⟩

theorem address_map_onePage : ∃ x', onePage.findPort (rangeSize 0x1040 1) = .ok (x', 0) := by
  obtain ⟨lists, h, h0⟩ := reach_onePage
  have hport : some 0 ≠ onePage.defaultPortID := by decide
  refine ((address_map_consistent h rfl).2 0x1040).1 0 ⟨hport, rangeSize 0x1000 0x1000, ?_, by decide⟩
  change _ ∈ lists 0
  rw [h0]
  exact List.mem_singleton_self _

def stripe (k : Nat) : AddrRange := { start := 0, end_ := 0x100, masks := [0x10], intlvMatch := k }

/-- The map after port 0 gave a single address of stripe 0 and port 1 both stripes. -/
def hiddenStripe : XbarMap where
  useDefaultRange := false
  defaultPortID := none
  gotAddrRanges := [true, true]
  gotAllAddrRanges := true
  portMap := { tree := [⟨2, stripe 0, 1⟩, ⟨1, stripe 1, 1⟩, ⟨0, rangeSize 0x60 1, 0⟩], nextId := 3 }
  xbarRanges := [rangeSize 0x60 1, rangeSize 0 0x100]

/-- **A range of one address hides an interleaving around it**: stripe 1 does not contain the address and is added, and
    stripe 0, which does, is only tested against stripe 1.  A later address of the interleaving has the one-address range
    as predecessor, which merges with no stripe. -/
theorem one_address_hides_stripe :
    ∃ x₁, (create false none 2).recvRangeChange 0 [rangeSize 0x60 1] = .ok x₁ ∧
      x₁.recvRangeChange 1 [stripe 1, stripe 0] = .ok hiddenStripe ∧ hiddenStripe.gotAllAddrRanges = true ∧
      (stripe 0).contains 0x80 = true ∧
      hiddenStripe.findPort (rangeSize 0x80 1) = .error (.panic "Unable to find destination") :=
  ⟨{ create false none 2 with
      gotAddrRanges := [true, false], portMap := { tree := [⟨0, rangeSize 0x60 1, 0⟩], nextId := 1 } },
    by decide +kernel, by decide +kernel, rfl, by decide +kernel, by decide +kernel⟩

end XbarMap

end Gem5
