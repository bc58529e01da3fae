import Mathlib.Data.List.Basic
import Mathlib.Data.List.Nodup
import Mathlib.Data.List.Perm.Basic
/-!
# IterList — a linked list whose users keep iterators

A list of nodes, each at an address of its own.  An iterator is an address.  It stays good while its node is in the list,
and no address is used twice, so an iterator of an erased node never points at another one.
-/

structure IterList (α : Type) where
  nodes : List (Nat × α)
  next : Nat
  nodup : (nodes.map Prod.fst).Nodup
  fresh : ∀ n ∈ nodes, n.1 < next

namespace IterList

variable {α : Type}

def empty : IterList α := ⟨[], 0, List.nodup_nil, fun n hn => by cases hn⟩

def elems (l : IterList α) : List α := l.nodes.map Prod.snd

def Points (l : IterList α) (it : Nat) (a : α) : Prop := (it, a) ∈ l.nodes

def reorder (l : IterList α) (nodes : List (Nat × α)) (h : nodes.Perm l.nodes) : IterList α where
  nodes := nodes
  next := l.next
  nodup := (h.map Prod.fst).nodup_iff.2 l.nodup
  fresh n hn := l.fresh n (h.subset hn)

/-- Puts an element before position `k`.  Its iterator is `l.next`. -/
def insertAt (l : IterList α) (k : Nat) (a : α) : IterList α where
  nodes := l.nodes.take k ++ (l.next, a) :: l.nodes.drop k
  next := l.next + 1
  nodup := by
    have hperm : (l.nodes.take k ++ (l.next, a) :: l.nodes.drop k).Perm ((l.next, a) :: l.nodes) := by
      refine List.perm_middle.trans (List.Perm.cons _ ?_)
      rw [List.take_append_drop]
    rw [(hperm.map Prod.fst).nodup_iff, List.map_cons, List.nodup_cons]
    refine ⟨fun hmem => ?_, l.nodup⟩
    obtain ⟨n, hn, heq⟩ := List.mem_map.1 hmem
    exact absurd (l.fresh n hn) (by rw [heq]; exact Nat.lt_irrefl _)
  fresh n hn := by
    rcases List.mem_append.1 hn with hn | hn
    · exact Nat.lt_succ_of_lt (l.fresh n (List.mem_of_mem_take hn))
    · rcases List.mem_cons.1 hn with rfl | hn
      · exact Nat.lt_succ_self _
      · exact Nat.lt_succ_of_lt (l.fresh n (List.mem_of_mem_drop hn))

def without (l : IterList α) (it : Nat) : IterList α where
  nodes := l.nodes.filter fun n => decide (n.1 ≠ it)
  next := l.next
  nodup := (List.filter_sublist.map Prod.fst).nodup l.nodup
  fresh n hn := l.fresh n (List.mem_of_mem_filter hn)

def get (l : IterList α) (it : Nat) : Option α := (l.nodes.find? fun n => decide (n.1 = it)).map Prod.snd

def erase (l : IterList α) (it : Nat) : Option (IterList α) := (l.get it).map fun _ => l.without it

theorem nodes_insertAt_perm (l : IterList α) (k : Nat) (a : α) : (l.insertAt k a).nodes.Perm ((l.next, a) :: l.nodes) := by
  refine List.perm_middle.trans (List.Perm.cons _ ?_)
  rw [List.take_append_drop]

theorem elems_insertAt_perm (l : IterList α) (k : Nat) (a : α) : (l.insertAt k a).elems.Perm (a :: l.elems) :=
  (l.nodes_insertAt_perm k a).map Prod.snd

variable {a b : α} {it jt : Nat} {l : IterList α}

theorem points_insertAt {k : Nat} : (l.insertAt k a).Points it b ↔ it = l.next ∧ b = a ∨ l.Points it b := by
  rw [Points, (l.nodes_insertAt_perm k a).mem_iff, List.mem_cons, Prod.mk.injEq]
  rfl

theorem points_unique (ha : l.Points it a) (hb : l.Points it b) : a = b := by
  have := List.inj_on_of_nodup_map l.nodup ha hb rfl
  exact congrArg Prod.snd this

theorem get_eq_some : l.get it = some a ↔ l.Points it a := by
  have hfind : ∀ {n : Nat × α}, l.nodes.find? (fun n => decide (n.1 = it)) = some n → n.1 = it ∧ n ∈ l.nodes := fun h =>
    ⟨by simpa using List.find?_some h, List.mem_of_find?_eq_some h⟩
  constructor
  · intro h
    obtain ⟨n, hn, rfl⟩ := Option.map_eq_some_iff.1 h
    obtain ⟨rfl, hmem⟩ := hfind hn
    exact hmem
  · intro h
    rw [get]
    cases hf : l.nodes.find? fun n => decide (n.1 = it) with
    | none => exact absurd (List.find?_eq_none.1 hf _ h) (by simp)
    | some n =>
      obtain ⟨hit, hmem⟩ := hfind hf
      exact congrArg some (points_unique (hit ▸ hmem) h)

theorem erase_of_points (h : l.Points it a) : l.erase it = some (l.without it) := by
  rw [erase, get_eq_some.2 h]
  rfl

theorem nodes_perm_without (h : l.Points it a) : l.nodes.Perm ((it, a) :: (l.without it).nodes) := by
  have hnd : l.nodes.Nodup := List.Nodup.of_map _ l.nodup
  have hcons : ((it, a) :: (l.without it).nodes).Nodup := by
    refine List.nodup_cons.2 ⟨fun hmem => ?_, hnd.filter _⟩
    simpa using (List.mem_filter.1 hmem).2
  refine (List.perm_ext_iff_of_nodup hnd hcons).2 fun n => ?_
  rw [List.mem_cons, show n ∈ (l.without it).nodes ↔ n ∈ l.nodes ∧ n.1 ≠ it by
    rw [without, List.mem_filter, decide_eq_true_eq]]
  constructor
  · intro hn
    by_cases hit : n.1 = it
    · exact .inl (List.inj_on_of_nodup_map l.nodup hn h hit)
    · exact .inr ⟨hn, hit⟩
  · rintro (rfl | hn)
    · exact h
    · exact hn.1

theorem elems_perm_without (h : l.Points it a) : l.elems.Perm (a :: (l.without it).elems) :=
  (nodes_perm_without h).map Prod.snd

theorem points_without : (l.without it).Points jt b ↔ l.Points jt b ∧ jt ≠ it := by
  rw [Points, without, List.mem_filter, decide_eq_true_eq]
  rfl

theorem Points.without (hb : l.Points jt b) (ha : l.Points it a) (hne : b ≠ a) : (l.without it).Points jt b := by
  refine points_without.2 ⟨hb, ?_⟩
  rintro rfl
  exact hne (points_unique hb ha)

section Distinct

variable {l : IterList α} {it k : Nat} {a b : α}

theorem nodup_elems_without (h : l.elems.Nodup) : (l.without it).elems.Nodup := (List.filter_sublist.map Prod.snd).nodup h

theorem mem_elems_without (h : l.elems.Nodup) (ha : l.Points it a) : b ∈ (l.without it).elems ↔ b ∈ l.elems ∧ b ≠ a := by
  have hperm := elems_perm_without ha
  have hcons := hperm.nodup_iff.1 h
  rw [hperm.mem_iff, List.mem_cons]
  constructor
  · intro hb
    exact ⟨.inr hb, fun heq => (List.nodup_cons.1 hcons).1 (heq ▸ hb)⟩
  · rintro ⟨hb, hne⟩
    exact hb.resolve_left hne

theorem length_elems_without (ha : l.Points it a) : (l.without it).elems.length + 1 = l.elems.length :=
  (elems_perm_without ha).length_eq.symm

theorem nodup_elems_insertAt (h : l.elems.Nodup) (ha : a ∉ l.elems) : (l.insertAt k a).elems.Nodup :=
  (l.elems_insertAt_perm k a).nodup_iff.2 (List.nodup_cons.2 ⟨ha, h⟩)

theorem mem_elems_insertAt : b ∈ (l.insertAt k a).elems ↔ b = a ∨ b ∈ l.elems := by
  rw [(l.elems_insertAt_perm k a).mem_iff, List.mem_cons]

theorem length_elems_insertAt : (l.insertAt k a).elems.length = l.elems.length + 1 :=
  (l.elems_insertAt_perm k a).length_eq

end Distinct

/-- `splice(pos, *this, it)`: moves the node at `it` before the one at `pos`, or to the end. -/
def splice (l : IterList α) (pos : Option Nat) (it : Nat) (a : α) (h : l.Points it a) : IterList α :=
  if pos = some it then l
  else
    let rest := (l.without it).nodes
    l.reorder (rest.takeWhile (fun n => decide (some n.1 ≠ pos)) ++ (it, a) :: rest.dropWhile fun n => decide (some n.1 ≠ pos))
      (by
        refine (List.perm_middle.trans (List.Perm.cons _ ?_)).trans (nodes_perm_without h).symm
        rw [List.takeWhile_append_dropWhile])

theorem splice_self {pos : Option Nat} (h : l.Points it a) (hpos : pos = some it) : l.splice pos it a h = l :=
  if_pos hpos

theorem dropWhile_points (h : l.Points it a) :
    ∃ rest, (l.nodes.dropWhile fun n => decide (n.1 ≠ it)) = (it, a) :: rest := by
  obtain ⟨before, after, heq⟩ := List.append_of_mem h
  have hnd := l.nodup
  rw [heq, List.map_append, List.map_cons, List.nodup_append] at hnd
  have hbefore : ∀ n ∈ before, decide (n.1 ≠ it) = true := fun n hn =>
    decide_eq_true (hnd.2.2 n.1 (List.mem_map_of_mem hn) it List.mem_cons_self)
  refine ⟨after, ?_⟩
  rw [heq, List.dropWhile_append_of_pos hbefore, List.dropWhile_cons_of_neg (by simp)]

end IterList
