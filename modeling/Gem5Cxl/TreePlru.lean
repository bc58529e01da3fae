import Gem5Cxl.Basic
import Mathlib.Algebra.Order.Ring.Nat
/-!
# TreePlru — tree pseudo-LRU (`mem/cache/replacement_policies/tree_plru_rp.cc`)

The direction bits of a tree with `2 ^ k` leaves are kept in an array, level by level.  `subtree` reads the array as a
tree of its own; there, one round of `getVictim` and `touch` turns the root and makes one round in the subtree it pointed
to, so that two rounds make one in each.  `std::floor` leaves the indices as they are; the root is never climbed from.
-/
namespace Gem5

namespace TreePlru

def parentIndex (index : Nat) : Nat := (index - 1) / 2

def leftSubtreeIndex (index : Nat) : Nat := 2 * index + 1

def rightSubtreeIndex (index : Nat) : Nat := 2 * index + 2

def isRightSubtree (index : Nat) : Bool := index % 2 == 0

theorem parentIndex_lt {index : Nat} (h : parentIndex index ≠ 0) : parentIndex index < index := by
  simp only [parentIndex] at h ⊢
  omega

/-- The loop of `touch` and of `invalidate`; `point` is what they write at the parent of a left or right subtree. -/
def climb (point : Bool → Bool) (tree : List Bool) (treeIndex : Nat) : Except Failure (List Bool) :=
  if tree.length ≤ parentIndex treeIndex then .error .outOfBounds
  else
    let tree := tree.set (parentIndex treeIndex) (point (isRightSubtree treeIndex))
    if parentIndex treeIndex = 0 then .ok tree else climb point tree (parentIndex treeIndex)
termination_by treeIndex
decreasing_by exact parentIndex_lt ‹_›

def descend (tree : List Bool) (treeIndex : Nat) : Nat :=
  if h : treeIndex < tree.length then
    descend tree (if tree[treeIndex] then rightSubtreeIndex treeIndex else leftSubtreeIndex treeIndex)
  else treeIndex
termination_by tree.length - treeIndex
decreasing_by
  simp only [rightSubtreeIndex, leftSubtreeIndex]
  split <;> omega

/-- The index that `instantiateEntry` gives to the leaf `x` of a tree. -/
def leafIndex (numLeaves x : Nat) : Nat := x + numLeaves - 1

def invalidate (numLeaves : Nat) (tree : List Bool) (x : Nat) : Except Failure (List Bool) :=
  climb (fun right => right) tree (leafIndex numLeaves x)

def touch (numLeaves : Nat) (tree : List Bool) (x : Nat) : Except Failure (List Bool) :=
  climb (fun right => !right) tree (leafIndex numLeaves x)

def reset (numLeaves : Nat) (tree : List Bool) (x : Nat) : Except Failure (List Bool) := touch numLeaves tree x

/-- The place of the victim among the candidates, which are the leaves in order. -/
def getVictim (numLeaves : Nat) (tree : List Bool) : Nat := descend tree 0 - (numLeaves - 1)

/-- `n` rounds of `getVictim` and `touch` of the victim, and the victims. -/
def rounds (numLeaves : Nat) : Nat → List Bool → Except Failure (List Nat)
  | 0, _ => .ok []
  | n + 1, tree => do
    let victim := getVictim numLeaves tree
    let tree ← touch numLeaves tree victim
    let victims ← rounds numLeaves n tree
    .ok (victim :: victims)

/-! ## Trees of direction bits -/

inductive Tree : Nat → Type where
  | leaf : Tree 0
  | node {h : Nat} (right : Bool) (l r : Tree h) : Tree (h + 1)

namespace Tree

def victim : {h : Nat} → Tree h → Nat
  | _, leaf => 0
  | _, node (h := h) b l r => if b then 2 ^ h + r.victim else l.victim

/-- Write at every node above the leaf `y`. -/
def point (f : Bool → Bool) : {h : Nat} → Tree h → Nat → Tree h
  | _, leaf, _ => leaf
  | _, node (h := h) _ l r, y =>
    if 2 ^ h ≤ y then node (f true) l (r.point f (y - 2 ^ h)) else node (f false) (l.point f y) r

def round {h : Nat} (t : Tree h) : Tree h := t.point (fun right => !right) t.victim

def victims {h : Nat} : Nat → Tree h → List Nat
  | 0, _ => []
  | n + 1, t => t.victim :: victims n t.round

variable {h : Nat}

theorem victim_lt : ∀ {h : Nat} (t : Tree h), t.victim < 2 ^ h
  | _, leaf => Nat.one_pos
  | _, node b l r => by
    have hl := l.victim_lt
    have hr := r.victim_lt
    rw [victim, Nat.pow_succ]
    split <;> omega

theorem victims_lt (t : Tree h) (n : Nat) : ∀ y ∈ t.victims n, y < 2 ^ h := by
  induction n generalizing t with
  | zero => simp [victims]
  | succ n ih =>
    intro y hy
    obtain rfl | hy := List.mem_cons.1 hy
    · exact t.victim_lt
    · exact ih t.round y hy

theorem round_node (b : Bool) (l r : Tree h) :
    (node b l r).round = if b then node false l r.round else node true l.round r := by
  have hl := l.victim_lt
  cases b with
  | false => simp [round, victim, point, Nat.not_le.2 hl]
  | true => simp [round, victim, point]

/-- **Two rounds make one in each subtree.** -/
theorem round_round_node (b : Bool) (l r : Tree h) : (node b l r).round.round = node b l.round r.round := by
  cases b <;> simp [round_node]

theorem count_victims_node {y : Nat} (hy : y < 2 ^ h) (n : Nat) (b : Bool) (l r : Tree h) :
    ((node b l r).victims (2 * n)).count y = (l.victims n).count y ∧
      ((node b l r).victims (2 * n)).count (2 ^ h + y) = (r.victims n).count y := by
  induction n generalizing l r with
  | zero => exact ⟨rfl, rfl⟩
  | succ n ih =>
    obtain ⟨ihl, ihr⟩ := ih l.round r.round
    have hl := l.victim_lt
    rw [show 2 * (n + 1) = 2 * n + 1 + 1 by omega]
    simp only [victims, round_round_node, List.count_cons, ihl, ihr]
    -- the two victims are one of each subtree, in the order the root points
    have hne : (2 ^ h + r.victim == y) = false := by simp; omega
    have hne' : (l.victim == 2 ^ h + y) = false := by simp; omega
    have heq : (2 ^ h + r.victim == 2 ^ h + y) = (r.victim == y) := by
      rw [Bool.eq_iff_iff]
      simp
    cases b <;> simp [round_node, victim, hne, hne', heq]

/-- **As many rounds as leaves select every leaf once.** -/
theorem count_victims : ∀ {h : Nat} (t : Tree h) {y : Nat}, y < 2 ^ h → (t.victims (2 ^ h)).count y = 1
  | _, leaf, y, hy => by
    obtain rfl : y = 0 := by omega
    rfl
  | h + 1, node b l r, y, hy => by
    rw [Nat.pow_succ] at hy
    rw [Nat.pow_succ, Nat.mul_comm]
    rcases Nat.lt_or_ge y (2 ^ h) with hlt | hge
    · rw [(count_victims_node hlt _ b l r).1]
      exact count_victims l hlt
    · obtain ⟨z, rfl⟩ := Nat.exists_eq_add_of_le hge
      have hz : z < 2 ^ h := by omega
      rw [(count_victims_node hz _ b l r).2]
      exact count_victims r hz

theorem victim_point_not (t : Tree (h + 1)) (y : Nat) : (t.point (fun right => !right) y).victim ≠ y := by
  cases t with
  | node b l r =>
    rw [point]
    split
    · have := l.victim_lt
      simp [victim]
      omega
    · simp [victim]
      omega

theorem victim_point_self : ∀ {h : Nat} (t : Tree h) {y : Nat}, y < 2 ^ h → (t.point (fun right => right) y).victim = y
  | _, leaf, y, hy => by
    obtain rfl : y = 0 := by omega
    rfl
  | h + 1, node b l r, y, hy => by
    rw [Nat.pow_succ] at hy
    rw [point]
    split
    · have := victim_point_self r (y := y - 2 ^ h) (by omega)
      simp only [victim, if_true, this]
      omega
    · exact victim_point_self l (by omega)

end Tree

/-! ## The array as a tree

Nodes are counted from one here: those below `j` are `2 * j` and `2 * j + 1`, the one above is `j / 2`. -/

def subtree (tree : List Bool) : (h : Nat) → Nat → Tree h
  | 0, _ => .leaf
  | h + 1, j => .node (tree[j - 1]?.getD false) (subtree tree h (2 * j)) (subtree tree h (2 * j + 1))

theorem descend_eq {tree : List Bool} {k : Nat} (hlen : tree.length = 2 ^ k - 1) (h : Nat) : ∀ j : Nat, 2 ^ k ≤ 2 ^ h * j →
    2 ^ h * (j + 1) ≤ 2 ^ (k + 1) → descend tree (j - 1) = 2 ^ h * j + (subtree tree h j).victim - 1 := by
  induction h with
  | zero =>
    intro j hge _
    rw [descend, dif_neg (by omega)]
    simp [subtree, Tree.victim]
  | succ h ih =>
    intro j hge hle
    have hl : 2 ^ (h + 1) * j = 2 ^ h * (2 * j) := by rw [Nat.pow_succ, Nat.mul_assoc]
    have hr : 2 ^ h * (2 * j + 1) = 2 ^ h * (2 * j) + 2 ^ h := Nat.mul_succ _ _
    have hr' : 2 ^ (h + 1) * (j + 1) = 2 ^ h * (2 * j + 1 + 1) := by rw [Nat.pow_succ, Nat.mul_assoc, Nat.mul_add]
    have hjle : 2 * (j + 1) ≤ 2 ^ (h + 1) * (j + 1) :=
      Nat.mul_le_mul_right (j + 1) (Nat.le_self_pow (Nat.succ_ne_zero h) 2)
    have hj : 0 < j := Nat.pos_of_ne_zero fun hj => by
      rw [hj, Nat.mul_zero] at hge
      exact absurd hge (Nat.not_le.2 (Nat.two_pow_pos k))
    have hin : j - 1 < tree.length := by
      rw [Nat.pow_succ 2 k] at hle
      omega
    rw [descend, dif_pos hin, subtree, Tree.victim, List.getElem?_eq_getElem hin, Option.getD_some, hl]
    rw [hl] at hge
    rw [hr'] at hle
    split
    · rw [show rightSubtreeIndex (j - 1) = 2 * j + 1 - 1 by unfold rightSubtreeIndex; omega,
        ih (2 * j + 1) (Nat.le_trans hge (Nat.mul_le_mul_left _ (Nat.le_succ _))) hle, hr, Nat.add_assoc]
    · rw [show leftSubtreeIndex (j - 1) = 2 * j - 1 by unfold leftSubtreeIndex; omega,
        ih (2 * j) hge (Nat.le_trans (Nat.mul_le_mul_left _ (Nat.le_succ _)) hle)]

theorem half (m e : Nat) : m / 2 ^ e / 2 = m / 2 ^ (e + 1) := by rw [Nat.div_div_eq_div_mul, Nat.pow_succ]

/-- What the loop of `touch` and `invalidate` leaves when it started below the node `m`. -/
structure Climbed (f : Bool → Bool) (m : Nat) (tree tree' : List Bool) : Prop where
  length : tree'.length = tree.length
  above : ∀ e, m / 2 ^ (e + 1) ≠ 0 → tree'[m / 2 ^ (e + 1) - 1]? = some (f (m / 2 ^ e % 2 == 1))
  frame : ∀ i, (∀ e, m / 2 ^ (e + 1) ≠ i + 1) → tree'[i]? = tree[i]?

theorem Climbed.root (f : Bool → Bool) (tree : List Bool) : Climbed f 1 tree tree := by
  have hzero : ∀ e, 1 / 2 ^ (e + 1) = 0 := fun e => Nat.div_eq_of_lt (Nat.one_lt_two_pow (Nat.succ_ne_zero e))
  exact ⟨rfl, fun e he => absurd (hzero e) he, fun _ _ => rfl⟩

theorem Climbed.step {f : Bool → Bool} {m : Nat} {tree tree' : List Bool} (hm : 2 ≤ m) (hlen : m / 2 ≤ tree.length)
    (h : Climbed f (m / 2) (tree.set (m / 2 - 1) (f (m % 2 == 1))) tree') : Climbed f m tree tree' := by
  have hhalf : ∀ e, m / 2 / 2 ^ e = m / 2 ^ (e + 1) := fun e => by rw [Nat.pow_succ', Nat.div_div_eq_div_mul]
  refine ⟨h.length.trans List.length_set, fun e he => ?_, fun i hi => ?_⟩
  · cases e with
    | zero =>
      -- the nodes further up are others
      have hlt : ∀ e, m / 2 / 2 ^ (e + 1) ≠ m / 2 - 1 + 1 := fun e => by
        rw [Nat.sub_add_cancel (by omega)]
        exact Nat.ne_of_lt (Nat.div_lt_self (by omega) (Nat.one_lt_two_pow (Nat.succ_ne_zero e)))
      simp only [Nat.zero_add, Nat.pow_one, Nat.pow_zero, Nat.div_one]
      rw [h.frame _ hlt]
      exact List.getElem?_set_self (by omega)
    | succ e =>
      rw [← hhalf] at he
      rw [← hhalf, ← hhalf]
      exact h.above e he
  · have hi' : ∀ e, m / 2 / 2 ^ (e + 1) ≠ i + 1 := fun e => by
      rw [hhalf]
      exact hi (e + 1)
    have hne : m / 2 ≠ i + 1 := by simpa using hi 0
    rw [h.frame i hi', List.getElem?_set_ne (by omega)]

theorem climb_ok (f : Bool → Bool) (m : Nat) : ∀ tree : List Bool, 2 ≤ m → m / 2 ≤ tree.length →
    ∃ tree', climb f tree (m - 1) = .ok tree' ∧ Climbed f m tree tree' := by
  induction m using Nat.strong_induction_on with
  | _ m ih =>
    intro tree hm hlen
    have hparent : parentIndex (m - 1) = m / 2 - 1 := by
      unfold parentIndex
      omega
    have hright : isRightSubtree (m - 1) = (m % 2 == 1) := by
      rw [isRightSubtree, Bool.eq_iff_iff]
      simp
      omega
    rw [climb, hparent, if_neg (by omega), hright]
    split
    case isTrue hroot =>
      refine ⟨_, rfl, Climbed.step hm hlen ?_⟩
      rw [show m / 2 = 1 by omega]
      exact Climbed.root f _
    case isFalse hroot =>
      obtain ⟨tree', hc, hcl⟩ := ih (m / 2) (by omega) (tree.set (m / 2 - 1) (f (m % 2 == 1))) (by omega)
        (by rw [List.length_set]; omega)
      exact ⟨tree', hc, hcl.step hm hlen⟩

section Climbed
variable {f : Bool → Bool} {m : Nat} {tree tree' : List Bool}

theorem Climbed.subtree_frame (hc : Climbed f m tree tree') (h : Nat) : ∀ j, 0 < j → (∀ e, m / 2 ^ e ≠ j) →
    subtree tree' h j = subtree tree h j := by
  induction h with
  | zero => exact fun _ _ _ => rfl
  | succ h ih =>
    intro j hj hne
    have hbelow : ∀ e c, c / 2 = j → m / 2 ^ e ≠ c := fun e c hcj heq => hne (e + 1) (by rw [← half, heq, hcj])
    rw [subtree, subtree, ih (2 * j) (by omega) fun e => hbelow e _ (by omega),
      ih (2 * j + 1) (by omega) fun e => hbelow e _ (by omega), hc.frame (j - 1) fun e => ?_]
    rw [Nat.sub_add_cancel hj]
    exact hne (e + 1)

/-- The sibling of a node above `m` is not above `m`. -/
theorem div_pow_ne_sibling {h j s : Nat} (hj : 0 < j) (hm : m / 2 ^ (h + 1) = j) (hs : s / 2 = j) (hne : m / 2 ^ h ≠ s) (e : Nat) :
    m / 2 ^ e ≠ s := by
  have hhalf : m / 2 ^ h / 2 = j := (half m h).trans hm
  rcases Nat.lt_trichotomy e h with hlt | rfl | hgt
  · have hle : m / 2 ^ (h - 1) ≤ m / 2 ^ e := Nat.div_le_div_left (Nat.pow_le_pow_right Nat.two_pos (by omega)) (Nat.two_pow_pos e)
    have hup : m / 2 ^ (h - 1) / 2 = m / 2 ^ h := by rw [half, Nat.sub_add_cancel (by omega)]
    omega
  · exact hne
  · have hle : m / 2 ^ e ≤ m / 2 ^ (h + 1) := Nat.div_le_div_left (Nat.pow_le_pow_right Nat.two_pos hgt) (Nat.two_pow_pos _)
    omega

theorem Climbed.subtree_above (hc : Climbed f m tree tree') (h : Nat) : ∀ j, 0 < j → m / 2 ^ h = j →
    subtree tree' h j = (subtree tree h j).point f (m % 2 ^ h) := by
  induction h with
  | zero => exact fun _ _ _ => rfl
  | succ h ih =>
    intro j hj hm
    have habove := hc.above h (by omega)
    have hhalf : m / 2 ^ h / 2 = j := (half m h).trans hm
    have hmod : m % 2 ^ (h + 1) = m % 2 ^ h + 2 ^ h * (m / 2 ^ h % 2) := by rw [Nat.pow_succ, Nat.mod_mul]
    have hlt : m % 2 ^ h < 2 ^ h := Nat.mod_lt _ (Nat.two_pow_pos h)
    rw [hm] at habove
    rw [subtree, subtree, habove, Option.getD_some, Tree.point, hmod]
    rcases Nat.mod_two_eq_zero_or_one (m / 2 ^ h) with h0 | h1
    · have hl : m / 2 ^ h = 2 * j := by omega
      have hr : ∀ e, m / 2 ^ e ≠ 2 * j + 1 := div_pow_ne_sibling hj hm (by omega) (by omega)
      rw [h0, if_neg (by omega), ih (2 * j) (by omega) hl, hc.subtree_frame h _ (by omega) hr]
      rfl
    · have hr : m / 2 ^ h = 2 * j + 1 := by omega
      have hl : ∀ e, m / 2 ^ e ≠ 2 * j := div_pow_ne_sibling hj hm (by omega) (by omega)
      rw [h1, if_pos (by omega), ih (2 * j + 1) (by omega) hr, hc.subtree_frame h _ (by omega) hl]
      simp

end Climbed

/-! ## The laws -/

section Laws
variable {k : Nat} {tree : List Bool}

theorem getVictim_eq (hlen : tree.length = 2 ^ k - 1) : getVictim (2 ^ k) tree = (subtree tree k 1).victim ∧
    descend tree 0 = leafIndex (2 ^ k) (getVictim (2 ^ k) tree) := by
  have hd : descend tree 0 = 2 ^ k * 1 + (subtree tree k 1).victim - 1 :=
    descend_eq hlen k 1 (by omega) (by rw [Nat.pow_succ])
  have := Nat.two_pow_pos k
  rw [leafIndex, getVictim, hd]
  omega

theorem climb_leaf (f : Bool → Bool) (hk : 1 ≤ k) (hlen : tree.length = 2 ^ k - 1) {x : Nat} (hx : x < 2 ^ k) :
    ∃ tree', climb f tree (leafIndex (2 ^ k) x) = .ok tree' ∧ tree'.length = 2 ^ k - 1 ∧
      subtree tree' k 1 = (subtree tree k 1).point f x := by
  have htwo : 2 ≤ 2 ^ k := Nat.le_self_pow (by omega) 2
  obtain ⟨tree', hc, hcl⟩ := climb_ok f (x + 2 ^ k) tree (by omega) (by omega)
  refine ⟨tree', hc, hcl.length.trans hlen, ?_⟩
  have hdiv : (x + 2 ^ k) / 2 ^ k = 1 := by
    rw [Nat.add_div_right _ (Nat.two_pow_pos k), Nat.div_eq_of_lt hx]
  rw [hcl.subtree_above k 1 Nat.one_pos hdiv, Nat.add_mod_right, Nat.mod_eq_of_lt hx]

theorem rounds_eq (hk : 1 ≤ k) (n : Nat) : ∀ {tree : List Bool}, tree.length = 2 ^ k - 1 →
    rounds (2 ^ k) n tree = .ok ((subtree tree k 1).victims n) := by
  induction n with
  | zero => exact fun _ => rfl
  | succ n ih =>
    intro tree hlen
    obtain ⟨tree', ht, hlen', hs⟩ := climb_leaf (fun right => !right) hk hlen (subtree tree k 1).victim_lt
    rw [rounds, (getVictim_eq hlen).1, touch, ht, Run.ok_bind, ih hlen', Run.ok_bind, hs]
    rfl

/-- **Laws of tree pseudo-LRU.** -/
theorem tree_plru_laws (hk : 1 ≤ k) (hlen : tree.length = 2 ^ k - 1) :
    (∀ x < 2 ^ k, ∃ tree', touch (2 ^ k) tree x = .ok tree' ∧ tree'.length = 2 ^ k - 1 ∧ getVictim (2 ^ k) tree' ≠ x) ∧
    (∀ x < 2 ^ k, ∃ tree', reset (2 ^ k) tree x = .ok tree' ∧ tree'.length = 2 ^ k - 1 ∧ getVictim (2 ^ k) tree' ≠ x) ∧
    (∀ x < 2 ^ k, ∃ tree', invalidate (2 ^ k) tree x = .ok tree' ∧ tree'.length = 2 ^ k - 1 ∧
      getVictim (2 ^ k) tree' = x) ∧
    (descend tree 0 = leafIndex (2 ^ k) (getVictim (2 ^ k) tree) ∧ getVictim (2 ^ k) tree < 2 ^ k) ∧
    ∃ victims, rounds (2 ^ k) (2 ^ k) tree = .ok victims ∧ (∀ x ∈ victims, x < 2 ^ k) ∧
      ∀ x < 2 ^ k, victims.count x = 1 := by
  have htouch : ∀ x < 2 ^ k, ∃ tree', touch (2 ^ k) tree x = .ok tree' ∧ tree'.length = 2 ^ k - 1 ∧
      getVictim (2 ^ k) tree' ≠ x := by
    intro x hx
    obtain ⟨tree', ht, hlen', hs⟩ := climb_leaf (fun right => !right) hk hlen hx
    refine ⟨tree', ht, hlen', ?_⟩
    rw [(getVictim_eq hlen').1, hs]
    obtain ⟨h, rfl⟩ := Nat.exists_eq_add_of_le' hk
    exact Tree.victim_point_not _ x
  refine ⟨htouch, htouch, fun x hx => ?_, ⟨(getVictim_eq hlen).2, ?_⟩,
    ⟨_, rounds_eq hk _ hlen, Tree.victims_lt _ _, fun x hx => Tree.count_victims _ hx⟩⟩
  · obtain ⟨tree', ht, hlen', hs⟩ := climb_leaf (fun right => right) hk hlen hx
    refine ⟨tree', ht, hlen', ?_⟩
    rw [(getVictim_eq hlen').1, hs]
    exact Tree.victim_point_self _ hx
  · rw [(getVictim_eq hlen).1]
    exact Tree.victim_lt _

end Laws

/-- Four leaves, the root pointing to the right. -/
theorem tree_plru_fourLeaves : ∃ victims, rounds 4 4 [true, false, true] = .ok victims ∧ victims.count 3 = 1 := by
  obtain ⟨-, -, -, -, victims, hr, -, hcount⟩ := tree_plru_laws (k := 2) (by decide) (by rfl : [true, false, true].length = _)
  exact ⟨victims, hr, hcount 3 (by decide)⟩

end TreePlru

end Gem5
