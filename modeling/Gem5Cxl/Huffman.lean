import Gem5Cxl.Basic
import Gem5Cxl.BinaryHeap
import Mathlib.Data.List.Pairwise
/-!
# Huffman — the Huffman encoder (`mem/cache/compressors/encoders/huffman.cc`)

The sampled pairs wait in a priority queue, the two rarest trees are merged until one is left, and a walk over that tree
fills the two code maps.  `codeToValue` is keyed on the number of a codeword alone, so that `1` and `01` share an entry.
-/
namespace Gem5.Huffman

structure Code where
  code : BitVec 64 := 0
  length : Nat := 0
deriving DecidableEq, Repr

inductive Node where
  | leaf (value frequency : BitVec 64)
  | branch (frequency : BitVec 64) (left right : Node)
deriving DecidableEq, Repr

namespace Node

instance : Inhabited Node := ⟨leaf 0 0⟩

def getFrequency : Node → BitVec 64
  | leaf _ f => f
  | branch f _ _ => f

/-- The node above `left` and `right`; the sum of the frequencies wraps around. -/
def parent (left right : Node) : Node := branch (left.getFrequency + right.getFrequency) left right

/-- `NodeComparator`, as the order in which the queue gives its nodes. -/
def before (lhs rhs : Node) : Bool := decide (lhs.getFrequency < rhs.getFrequency)

theorem strictWeak_before : BinaryHeap.StrictWeak before where
  asymm := by
    intro x y h
    simp only [before, decide_eq_true_eq, decide_eq_false_iff_not] at h ⊢
    exact BitVec.not_lt.2 (BitVec.le_of_lt h)
  le_trans := by
    intro x y z hxy hyz
    simp only [before, decide_eq_false_iff_not, BitVec.not_lt] at hxy hyz ⊢
    exact BitVec.le_trans hxy hyz

def leaves : Node → List (BitVec 64 × BitVec 64)
  | leaf v f => [(v, f)]
  | branch _ l r => l.leaves ++ r.leaves

/-- **A leaf of value `v` stands at depth `d`.** -/
inductive HasDepth (v : BitVec 64) : Node → Nat → Prop
  | leaf {f} : HasDepth v (leaf v f) 0
  | left {f l r d} : HasDepth v l d → HasDepth v (branch f l r) (d + 1)
  | right {f l r d} : HasDepth v r d → HasDepth v (branch f l r) (d + 1)

end Node

abbrev Trees := Array Node

namespace Trees

def push (trees : Trees) (n : Node) : Trees := BinaryHeap.pushHeap Node.before (Array.push trees n)

def top (trees : Trees) : Node := trees[0]!

def pop (trees : Trees) : Trees := (BinaryHeap.popHeap Node.before trees).pop

def sample (trees : Trees) (value frequency : BitVec 64) : Trees :=
  if frequency ≠ 0 then trees.push (.leaf value frequency) else trees

def sampleAll (samples : List (BitVec 64 × BitVec 64)) : Trees := samples.foldl (fun t s => t.sample s.1 s.2) #[]

/-- `buildTree`: the last `top` is undefined on an empty queue. -/
def buildTree : Nat → Trees → Except Failure Node
  | 0, _ => .error .looping
  | fuel + 1, trees =>
    if trees.size > 1 then
      let left := trees.top
      let trees := trees.pop
      let right := trees.top
      let trees := trees.pop
      buildTree fuel (trees.push (.parent left right))
    else if trees.size = 0 then .error .outOfBounds
    else .ok trees.top

end Trees

structure CodeMaps where
  valueToCode : BitVec 64 → Option Code := fun _ => none
  codeToValue : BitVec 64 → Option (BitVec 64) := fun _ => none

namespace CodeMaps

def put (m : CodeMaps) (value : BitVec 64) (c : Code) : CodeMaps where
  valueToCode := Function.update m.valueToCode value (some c)
  codeToValue := Function.update m.codeToValue c.code (some value)

def generateCodes (maxCodeLength : Nat) (m : CodeMaps) (node : Node) (currentCode : Code) : CodeMaps :=
  if currentCode.length > maxCodeLength then m
  else match node with
    | .leaf value _ => m.put value currentCode
    | .branch _ left right =>
      let rightCode : Code := ⟨(currentCode.code <<< 1) + 1, currentCode.length + 1⟩
      let m := generateCodes maxCodeLength m right rightCode
      let leftCode : Code := ⟨currentCode.code <<< 1, currentCode.length + 1⟩
      generateCodes maxCodeLength m left leftCode

def generateCodeMaps (maxCodeLength : Nat) (trees : Trees) : Except Failure CodeMaps := do
  let root ← trees.buildTree trees.size
  return generateCodes maxCodeLength {} root {}

def encode (m : CodeMaps) (val : BitVec 64) : Code :=
  match m.valueToCode val with
  | none => ⟨0, 65⟩
  | some c => c

def decode (m : CodeMaps) (code : BitVec 64) : Except Failure (BitVec 64) :=
  match m.codeToValue code with
  | none => .error .assertFailed
  | some v => .ok v

def Encodable (m : CodeMaps) (v : BitVec 64) : Prop := (m.valueToCode v).isSome

instance (m : CodeMaps) (v : BitVec 64) : Decidable (m.Encodable v) := inferInstanceAs (Decidable (_ = true))

end CodeMaps

/-! ## The tree -/

namespace Trees

def leaves (trees : Trees) : List (BitVec 64 × BitVec 64) := trees.toList.flatMap Node.leaves

def Heap (trees : Trees) : Prop := BinaryHeap.IsHeap Node.before trees trees.size

variable {trees : Trees}

theorem push_spec (h : Heap trees) (n : Node) :
    Heap (trees.push n) ∧ (leaves (trees.push n)).Perm (n.leaves ++ leaves trees) ∧
      Array.size (trees.push n) = trees.size + 1 := by
  obtain ⟨hheap, hperm⟩ := BinaryHeap.isHeap_push Node.strictWeak_before h n
  refine ⟨hheap, hperm.flatMap_right _, ?_⟩
  have hlen := hperm.length_eq
  rwa [Array.length_toList, List.length_cons, Array.length_toList] at hlen

theorem pop_spec (h : Heap trees) (hpos : 0 < trees.size) :
    Heap trees.pop ∧ (leaves trees).Perm (trees.top.leaves ++ leaves trees.pop) ∧
      Array.size trees.pop + 1 = trees.size := by
  obtain ⟨hheap, hperm⟩ := BinaryHeap.isHeap_pop Node.strictWeak_before h hpos
  refine ⟨hheap, hperm.flatMap_right _, ?_⟩
  have hlen := hperm.length_eq
  rw [Array.length_toList, List.length_cons, Array.length_toList] at hlen
  exact hlen.symm

theorem sample_foldl_spec (samples : List (BitVec 64 × BitVec 64)) : ∀ {trees : Trees}, Heap trees →
    Heap (samples.foldl (fun t s => t.sample s.1 s.2) trees) ∧
      (leaves (samples.foldl (fun t s => t.sample s.1 s.2) trees)).Perm
        (samples.filter (fun s => s.2 ≠ 0) ++ leaves trees) := by
  induction samples with
  | nil => exact fun h => ⟨h, .refl _⟩
  | cons s samples ih =>
    intro trees h
    by_cases hs : s.2 ≠ 0
    · obtain ⟨hheap, hperm, -⟩ := push_spec h (.leaf s.1 s.2)
      obtain ⟨hheap', hperm'⟩ := ih hheap
      rw [List.foldl_cons, sample, if_pos hs, List.filter_cons_of_pos (by simpa using hs)]
      exact ⟨hheap', hperm'.trans ((hperm.append_left _).trans List.perm_middle)⟩
    · rw [List.foldl_cons, sample, if_neg hs, List.filter_cons_of_neg (by simpa using hs)]
      exact ih h

theorem sampleAll_spec (samples : List (BitVec 64 × BitVec 64)) :
    Heap (sampleAll samples) ∧ (leaves (sampleAll samples)).Perm (samples.filter (fun s => s.2 ≠ 0)) := by
  have hempty : Heap #[] := fun i _ hi => absurd hi (Nat.not_lt_zero i)
  have h := sample_foldl_spec samples hempty
  rwa [show leaves #[] = [] from rfl, List.append_nil] at h

theorem buildTree_spec : ∀ (fuel : Nat) {trees : Trees}, Heap trees → 0 < trees.size → trees.size ≤ fuel →
    ∃ root, trees.buildTree fuel = .ok root ∧ root.leaves.Perm (leaves trees)
  | 0, _, _, hpos, hfuel => absurd hpos (by omega)
  | fuel + 1, trees, h, hpos, hfuel => by
    rw [buildTree]
    by_cases hone : trees.size > 1
    · rw [if_pos hone]
      obtain ⟨hheap₁, hperm₁, hsize₁⟩ := pop_spec h hpos
      obtain ⟨hheap₂, hperm₂, hsize₂⟩ := pop_spec hheap₁ (by omega)
      obtain ⟨hheap₃, hperm₃, hsize₃⟩ := push_spec hheap₂ (.parent trees.top trees.pop.top)
      obtain ⟨root, hroot, hleaves⟩ := buildTree_spec fuel hheap₃ (by omega) (by omega)
      refine ⟨root, hroot, hleaves.trans (hperm₃.trans ?_)⟩
      have := (hperm₁.trans (hperm₂.append_left _)).symm
      rwa [← List.append_assoc] at this
    · rw [if_neg hone, if_neg (by omega)]
      obtain ⟨-, hperm, hsize⟩ := pop_spec h hpos
      have hnil : leaves trees.pop = [] := by
        rw [leaves, Array.eq_empty_of_size_eq_zero (show Array.size trees.pop = 0 by omega)]
        rfl
      rw [hnil, List.append_nil] at hperm
      exact ⟨trees.top, rfl, hperm.symm⟩

end Trees

/-! ## The codewords -/

def Code.bits (c : Code) : List Bool := (List.range c.length).map (fun i => c.code.getLsbD (c.length - 1 - i))

def Code.child (c : Code) (b : Bool) : Code := ⟨(c.code <<< 1) + (if b then 1 else 0), c.length + 1⟩

theorem Code.code_child (c : Code) (b : Bool) : (c.child b).code = (c.code <<< 1) ||| (if b then 1 else 0) := by
  unfold child
  cases b with
  | false => simp
  | true =>
    have hlow : (c.code <<< 1) &&& (1 : BitVec 64) = 0 := by
      ext j hj
      cases j <;> simp [BitVec.getElem_one]
    simpa using BitVec.add_eq_or_of_and_eq_zero _ _ hlow

/-- **A child's bit string is its parent's with one more bit**, as long as the container has room. -/
theorem Code.bits_child {c : Code} (h : c.length < 64) (b : Bool) : (c.child b).bits = c.bits ++ [b] := by
  have hbit : ∀ i, (c.child b).code.getLsbD (i + 1) = (decide (i + 1 < 64) && c.code.getLsbD i) := by
    intro i
    rw [code_child]
    cases b <;> simp [BitVec.getLsbD_one]
  have hlast : (c.child b).code.getLsbD 0 = b := by
    rw [code_child]
    cases b <;> simp
  rw [bits, show (c.child b).length = c.length + 1 from rfl, List.range_succ, List.map_append, bits]
  congr 1
  · apply List.map_congr_left
    intro i hi
    have hi := List.mem_range.1 hi
    rw [show c.length + 1 - 1 - i = c.length - 1 - i + 1 by omega, hbit, decide_eq_true (by omega), Bool.true_and]
  · simpa using hlast

/-- The codewords that `generateCodes` puts in the maps, in its order: the right child comes first. -/
def Node.codewords (maxCodeLength : Nat) : Node → Code → List (BitVec 64 × Code)
  | leaf v _, c => if c.length > maxCodeLength then [] else [(v, c)]
  | branch _ l r, c =>
    if c.length > maxCodeLength then []
    else r.codewords maxCodeLength (c.child true) ++ l.codewords maxCodeLength (c.child false)

def CodeMaps.putAll (ws : List (BitVec 64 × Code)) (m : CodeMaps) : CodeMaps := ws.foldl (fun m e => m.put e.1 e.2) m

theorem CodeMaps.generateCodes_eq (maxCodeLength : Nat) (node : Node) : ∀ (m : CodeMaps) (c : Code),
    m.generateCodes maxCodeLength node c = putAll (node.codewords maxCodeLength c) m := by
  induction node with
  | leaf v f =>
    intro m c
    rw [generateCodes, Node.codewords]
    split <;> rfl
  | branch f l r ihl ihr =>
    intro m c
    rw [generateCodes, Node.codewords]
    split
    · rfl
    · have hleft : (⟨c.code <<< 1, c.length + 1⟩ : Code) = c.child false := by simp [Code.child]
      have hright : (⟨(c.code <<< 1) + 1, c.length + 1⟩ : Code) = c.child true := rfl
      dsimp only
      rw [hleft, hright, ihr, ihl, putAll, putAll, putAll, List.foldl_append]

section

variable {maxCodeLength : Nat}

theorem Node.codewords_of_lt {c : Code} (h : maxCodeLength < c.length) (node : Node) :
    node.codewords maxCodeLength c = [] := by
  cases node <;> rw [codewords, if_pos h]

theorem Node.bits_codeword (hmax : maxCodeLength ≤ 64) (node : Node) : ∀ {c : Code} {e : BitVec 64 × Code},
    e ∈ node.codewords maxCodeLength c → c.bits <+: e.2.bits := by
  induction node with
  | leaf v f =>
    intro c e he
    rw [codewords] at he
    split at he
    · exact absurd he List.not_mem_nil
    · obtain rfl := List.mem_singleton.1 he
      exact List.prefix_rfl
  | branch f l r ihl ihr =>
    intro c e he
    by_cases hlen : c.length < maxCodeLength
    · have hstep : ∀ b, (c.child b).bits <+: e.2.bits → c.bits <+: e.2.bits := by
        intro b hb
        rw [Code.bits_child (by omega)] at hb
        exact (List.prefix_append _ _).trans hb
      rw [codewords, if_neg (by omega)] at he
      rcases List.mem_append.1 he with he | he
      · exact hstep true (ihr he)
      · exact hstep false (ihl he)
    · rw [codewords, codewords_of_lt (by simp only [Code.child]; omega), codewords_of_lt (by simp only [Code.child]; omega),
        List.append_nil, ite_self] at he
      exact absurd he List.not_mem_nil

def Apart (x y : List Bool) : Prop := ¬ x <+: y ∧ ¬ y <+: x

instance : Std.Symm (fun e e' : BitVec 64 × Code => Apart e.2.bits e'.2.bits) := ⟨fun _ _ h => ⟨h.2, h.1⟩⟩

theorem Apart.of_children {p x y : List Bool} (hx : p ++ [true] <+: x) (hy : p ++ [false] <+: y) : Apart x y := by
  obtain ⟨x', rfl⟩ := hx
  obtain ⟨y', rfl⟩ := hy
  constructor <;> simp [List.append_assoc]

/-- **The codewords of a tree are prefix-free**, by induction on the tree: those of the right child continue with a one,
those of the left child with a zero. -/
theorem Node.codewords_apart (hmax : maxCodeLength ≤ 64) (node : Node) : ∀ c : Code,
    (node.codewords maxCodeLength c).Pairwise (fun e e' => Apart e.2.bits e'.2.bits) := by
  induction node with
  | leaf v f =>
    intro c
    rw [codewords]
    split
    · exact .nil
    · exact List.pairwise_singleton _ _
  | branch f l r ihl ihr =>
    intro c
    by_cases hlen : c.length < maxCodeLength
    · rw [codewords, if_neg (by omega), List.pairwise_append]
      refine ⟨ihr _, ihl _, fun e he e' he' => ?_⟩
      have hr := bits_codeword hmax r he
      have hl := bits_codeword hmax l he'
      rw [Code.bits_child (by omega)] at hr hl
      exact .of_children hr hl
    · rw [codewords, codewords_of_lt (by simp only [Code.child]; omega), codewords_of_lt (by simp only [Code.child]; omega),
        List.append_nil, ite_self]
      exact .nil

theorem Node.HasDepth.exists_codeword {v : BitVec 64} {node : Node} {d : Nat} (h : node.HasDepth v d) :
    ∀ {c : Code}, c.length + d ≤ maxCodeLength → v ∈ (node.codewords maxCodeLength c).map Prod.fst := by
  induction h with
  | leaf =>
    intro c hc
    rw [codewords, if_neg (by omega)]
    exact List.mem_singleton_self v
  | left _ ih =>
    intro c hc
    rw [codewords, if_neg (by omega), List.map_append]
    exact List.mem_append_right _ (ih (by simp only [Code.child]; omega))
  | right _ ih =>
    intro c hc
    rw [codewords, if_neg (by omega), List.map_append]
    exact List.mem_append_left _ (ih (by simp only [Code.child]; omega))

end

/-! ## The maps -/

namespace CodeMaps

variable {ws : List (BitVec 64 × Code)} {v : BitVec 64}

theorem putAll_cons (e : BitVec 64 × Code) (m : CodeMaps) : putAll (e :: ws) m = putAll ws (m.put e.1 e.2) := rfl

/-- What one of the two maps holds after the puts: nothing new, or what one of the puts has left there. -/
theorem putAll_cases {β : Type} (get : CodeMaps → BitVec 64 → Option β) (key : BitVec 64 × Code → BitVec 64)
    (val : BitVec 64 × Code → β)
    (hput : ∀ (m : CodeMaps) e, get (m.put e.1 e.2) = Function.update (get m) (key e) (some (val e))) :
    ∀ (ws : List (BitVec 64 × Code)) (m : CodeMaps) (k : BitVec 64),
      (k ∉ ws.map key ∧ get (putAll ws m) k = get m k) ∨ ∃ e ∈ ws, key e = k ∧ get (putAll ws m) k = some (val e)
  | [], _, _ => .inl ⟨List.not_mem_nil, rfl⟩
  | e :: ws, m, k => by
    rw [putAll_cons]
    rcases putAll_cases get key val hput ws (m.put e.1 e.2) k with ⟨hk, h⟩ | ⟨e', he', hk, h⟩
    · rw [h, hput]
      by_cases he : k = key e
      · subst he
        exact .inr ⟨e, List.mem_cons_self, rfl, Function.update_self ..⟩
      · exact .inl ⟨by simp [he, hk], Function.update_of_ne he ..⟩
    · exact .inr ⟨e', List.mem_cons_of_mem _ he', hk, h⟩

theorem valueToCode_putAll (ws : List (BitVec 64 × Code)) (m : CodeMaps) (v : BitVec 64) :
    (v ∉ ws.map Prod.fst ∧ (putAll ws m).valueToCode v = m.valueToCode v) ∨
      ∃ e ∈ ws, e.1 = v ∧ (putAll ws m).valueToCode v = some e.2 :=
  putAll_cases valueToCode Prod.fst Prod.snd (fun _ _ => rfl) ws m v

theorem codeToValue_putAll (ws : List (BitVec 64 × Code)) (m : CodeMaps) (k : BitVec 64) :
    (k ∉ ws.map (·.2.code) ∧ (putAll ws m).codeToValue k = m.codeToValue k) ∨
      ∃ e ∈ ws, e.2.code = k ∧ (putAll ws m).codeToValue k = some e.1 :=
  putAll_cases codeToValue (·.2.code) Prod.fst (fun _ _ => rfl) ws m k

/-- **No codeword that stays in use shares its number with a later one.**  A codeword is out of use when its value is
given another one later. -/
def Clear : List (BitVec 64 × Code) → Prop
  | [] => True
  | e :: ws => (e.1 ∈ ws.map Prod.fst ∨ e.2.code ∉ ws.map (·.2.code)) ∧ Clear ws

def RoundTrip (m : CodeMaps) (v : BitVec 64) : Prop := m.decode (m.encode v).code = .ok v

theorem roundTrip_of_eq {m : CodeMaps} {c : Code} (h : m.valueToCode v = some c) :
    m.RoundTrip v ↔ m.codeToValue c.code = some v := by
  rw [RoundTrip, encode, h, decode]
  cases m.codeToValue c.code <;> simp

/-- The first codeword of the list: unless a later one is for its value, it decodes exactly when no later one has its
number. -/
theorem roundTrip_head (e : BitVec 64 × Code) (m : CodeMaps) (hv : e.1 ∉ ws.map Prod.fst) :
    (putAll (e :: ws) m).RoundTrip e.1 ↔ e.2.code ∉ ws.map (·.2.code) := by
  have hcode : (putAll (e :: ws) m).valueToCode e.1 = some e.2 := by
    rcases valueToCode_putAll ws (m.put e.1 e.2) e.1 with ⟨-, h⟩ | ⟨e', he', hk, -⟩
    · rw [putAll_cons, h]
      exact Function.update_self ..
    · exact absurd (hk ▸ List.mem_map_of_mem (f := Prod.fst) he') hv
  rw [roundTrip_of_eq hcode, putAll_cons]
  rcases codeToValue_putAll ws (m.put e.1 e.2) e.2.code with ⟨hk, h⟩ | ⟨e', he', hk, h⟩
  · refine iff_of_true ?_ hk
    rw [h]
    exact Function.update_self ..
  · refine iff_of_false ?_ (not_not_intro (hk ▸ List.mem_map_of_mem (f := (·.2.code)) he'))
    rw [h]
    intro heq
    exact hv (Option.some.inj heq ▸ List.mem_map_of_mem (f := Prod.fst) he')

/-- **Every value of the list decodes exactly when the codewords are clear.** -/
theorem roundTrip_putAll_iff : ∀ (ws : List (BitVec 64 × Code)) (m : CodeMaps),
    (∀ v ∈ ws.map Prod.fst, (putAll ws m).RoundTrip v) ↔ Clear ws
  | [], _ => by simp [Clear]
  | e :: ws, m => by
    rw [Clear, ← roundTrip_putAll_iff ws (m.put e.1 e.2), List.map_cons, List.forall_mem_cons]
    refine and_congr_left fun hrest => ?_
    by_cases hv : e.1 ∈ ws.map Prod.fst
    · exact iff_of_true (hrest _ hv) (.inl hv)
    · rw [roundTrip_head e m hv]
      simp [hv]

theorem encodable_putAll_iff : (putAll ws {}).Encodable v ↔ v ∈ ws.map Prod.fst := by
  rw [Encodable]
  rcases valueToCode_putAll ws {} v with ⟨hv, h⟩ | ⟨e, he, rfl, h⟩
  · rw [h]
    simpa using hv
  · rw [h]
    exact iff_of_true rfl (List.mem_map_of_mem he)

theorem encode_putAll (h : (putAll ws {}).Encodable v) : (v, (putAll ws {}).encode v) ∈ ws := by
  rcases valueToCode_putAll ws {} v with ⟨hv, -⟩ | ⟨e, he, rfl, hc⟩
  · exact absurd (encodable_putAll_iff.1 h) hv
  · rwa [encode, hc]

end CodeMaps

end Gem5.Huffman
