import Mathlib.Data.List.Nodup
import Mathlib.Tactic.Common
/-!
# LruStack — fully associative LRU caches of all sizes

The keys of an LRU cache, most recent first.  The cache of size `n` is the first `n` keys of any larger one, so that a
hit in a smaller cache is a hit in a larger one.
-/
namespace LruStack

variable {K : Type} [DecidableEq K]

variable {k : K} {l : List K} {q n m : Nat}

theorem getElem?_moveFront (hl : l.Nodup) (hq : l[q]? = some k) (p : Nat) :
    (k :: l.erase k)[p + 1]? = if p < q then l[p]? else l[p + 1]? := by
  obtain ⟨hlt, rfl⟩ := List.getElem?_eq_some_iff.1 hq
  have hidx : l.idxOf l[q] = q := hl.idxOf_getElem q hlt
  rw [List.getElem?_cons_succ, List.erase_eq_eraseIdx_of_idxOf hidx, List.getElem?_eraseIdx]

def access (n : Nat) (l : List K) (k : K) : List K := (k :: l.erase k).take n

theorem access_hit (hl : l.Nodup) (hn : l.length ≤ n) (hq : l[q]? = some k) : access n l k = k :: l.eraseIdx q := by
  obtain ⟨hlt, rfl⟩ := List.getElem?_eq_some_iff.1 hq
  have hidx : l.idxOf l[q] = q := hl.idxOf_getElem q hlt
  rw [access, List.erase_eq_eraseIdx_of_idxOf hidx, List.take_of_length_le]
  rw [List.length_cons, List.length_eraseIdx_of_lt hlt]
  omega

theorem access_miss (hk : k ∉ l) : access (n + 1) l k = k :: l.take n := by
  rw [access, List.erase_of_not_mem hk, List.take_succ_cons]

theorem length_access (n : Nat) (l : List K) (k : K) : (access n l k).length ≤ n := List.length_take_le _ _

def hits (n : Nat) : List K → List K → Nat
  | _, [] => 0
  | l, k :: ks => (if k ∈ l then 1 else 0) + hits n (access n l k) ks

def run (n : Nat) (l : List K) (ks : List K) : List K := ks.foldl (access n) l

theorem take_erase_take (l : List K) (k : K) (n : Nat) : ((l.take (n + 1)).erase k).take n = (l.erase k).take n := by
  induction l generalizing n with
  | nil => rfl
  | cons x l ih =>
    by_cases hx : x = k
    · subst hx
      rw [List.take_succ_cons, List.erase_cons_head, List.erase_cons_head, List.take_take, Nat.min_self]
    · have hbeq : ¬ (x == k) = true := by simpa using hx
      rw [List.take_succ_cons, List.erase_cons_tail hbeq, List.erase_cons_tail hbeq]
      cases n with
      | zero => rfl
      | succ n => rw [List.take_succ_cons, List.take_succ_cons, ih]

/-- **Inclusion**: a smaller cache is the beginning of a larger one. -/
theorem take_access (h : n ≤ m) (l : List K) (k : K) : (access m l k).take n = access n (l.take n) k := by
  rw [access, access, List.take_take, Nat.min_eq_left h]
  cases n with
  | zero => rfl
  | succ n => rw [List.take_succ_cons, List.take_succ_cons, take_erase_take]

/-- A smaller cache has fewer hits, and as many exactly if no access hits only the larger one. -/
theorem hits_take (h : n ≤ m) (l ks : List K) : hits n (l.take n) ks ≤ hits m l ks ∧
      (hits n (l.take n) ks = hits m l ks ↔
        ∀ pre k post, ks = pre ++ k :: post → k ∈ run m l pre → k ∈ run n (l.take n) pre) := by
  induction ks generalizing l with
  | nil =>
    refine ⟨Nat.le_refl _, fun _ pre k post hks => ?_, fun _ => rfl⟩
    simp at hks
  | cons k ks ih =>
    have hrest := ih (access m l k)
    rw [take_access h] at hrest
    have hsub : k ∈ l.take n → k ∈ l := fun hk => List.mem_of_mem_take hk
    have hone : (if k ∈ l.take n then 1 else 0) ≤ if k ∈ l then 1 else 0 := by
      split
      · rename_i hk
        exact Nat.le_of_eq (if_pos (hsub hk)).symm
      · exact Nat.zero_le _
    simp only [hits]
    refine ⟨Nat.add_le_add hone hrest.1, ?_⟩
    constructor
    · intro heq pre k' post hks hmem
      have hrests : hits n (access n (l.take n) k) ks = hits m (access m l k) ks := by omega
      have hfirst : (if k ∈ l.take n then 1 else 0) = if k ∈ l then 1 else 0 := by omega
      cases pre with
      | nil =>
        simp only [List.nil_append, List.cons.injEq] at hks
        obtain ⟨rfl, -⟩ := hks
        have hmem : k ∈ l := hmem
        by_contra hno
        have hno : ¬ k ∈ l.take n := hno
        rw [if_neg hno, if_pos hmem] at hfirst
        cases hfirst
      | cons x pre =>
        simp only [List.cons_append, List.cons.injEq] at hks
        obtain ⟨rfl, hks⟩ := hks
        exact hrest.2.1 hrests pre k' post hks hmem
    · intro hall
      have hfirst : (if k ∈ l.take n then 1 else 0) = if k ∈ l then 1 else 0 := by
        by_cases hk : k ∈ l
        · have hk' : k ∈ l.take n := hall [] k ks rfl hk
          rw [if_pos hk, if_pos hk']
        · rw [if_neg hk, if_neg fun hk' => hk (hsub hk')]
      have hrests := hrest.2.2 fun pre k' post hks hmem => hall (k :: pre) k' post (by rw [hks]; rfl) hmem
      rw [hfirst, hrests]

theorem nodup_access (h : l.Nodup) (k : K) : (access n l k).Nodup :=
  (List.nodup_cons.2 ⟨fun hk => ((h.mem_erase_iff).1 hk).1 rfl, h.erase k⟩).sublist (List.take_sublist _ _)

end LruStack
