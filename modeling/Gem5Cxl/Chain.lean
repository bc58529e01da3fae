import Mathlib.Tactic.Common
import Mathlib.Order.Lattice
import Mathlib.Data.List.TakeWhile
/-!
# Chain — linked chains, and sorted chains of chains

A heap of nodes is a successor function `next : α → Option α`.  `Links next p l q` says that following `next` from `p`
visits exactly the nodes of `l`, in order, and then stands at `q`.

A *bin* is a node (its top) with the nodes stacked under it.  `BinLinks` lays a list of bins out with two successor
functions: one links the tops, the other links each stack.  Nothing is said of the first function below a top: a node
that is not a top may hold anything there.  `BinSorted` orders the bins by a key, all nodes of a bin sharing it.
-/
namespace Chain

open List (mem_cons mem_cons_of_mem mem_cons_self pairwise_append pairwise_cons)

/-! ## One chain -/

variable {α : Type}

/-- **Following `next` from `p` visits `l` and ends at `q`.** -/
def Links (next : α → Option α) : Option α → List α → Option α → Prop
  | p, [], q => p = q
  | p, a :: l, q => p = some a ∧ Links next (next a) l q

@[simp] theorem links_nil (next : α → Option α) (p q : Option α) : Links next p [] q ↔ p = q := Iff.rfl

@[simp] theorem links_cons (next : α → Option α) (p q : Option α) (a : α) (l : List α) :
    Links next p (a :: l) q ↔ p = some a ∧ Links next (next a) l q := Iff.rfl

theorem links_append (next : α → Option α) : ∀ (l m : List α) (p q : Option α),
    Links next p (l ++ m) q ↔ ∃ r, Links next p l r ∧ Links next r m q
  | [], m, p, q => by simp
  | a :: l, m, p, q => by
    simp only [List.cons_append, links_cons, links_append next l m, and_assoc, exists_and_left]

theorem links_congr {f g : α → Option α} : ∀ {l : List α} {p q : Option α},
    (∀ a ∈ l, f a = g a) → Links f p l q → Links g p l q
  | [], _, _, _, h => h
  | a :: l, p, q, hfg, h => by
    obtain ⟨hp, hl⟩ := h
    refine ⟨hp, ?_⟩
    rw [← hfg a mem_cons_self]
    exact links_congr (fun x hx => hfg x (mem_cons_of_mem a hx)) hl

/-- **Splicing**: a new successor function that agrees with the old one before `a` keeps the chain up to `a`, and goes
on from `a` as the new one says. -/
theorem links_splice {f g : α → Option α} {l₁ l₂ m : List α} {a : α} {p q q' : Option α}
    (h : Links f p (l₁ ++ a :: l₂) q) (hfg : ∀ x ∈ l₁, f x = g x) (hm : Links g (g a) m q') :
    Links g p (l₁ ++ a :: m) q' := by
  rw [links_append] at h ⊢
  obtain ⟨r, h1, hr, -⟩ := h
  exact ⟨r, links_congr hfg h1, hr, hm⟩

theorem links_unlink {f g : α → Option α} {l r : List α} {c e : α} {p : Option α}
    (h : Links f p (l ++ c :: e :: r) none) (hnd : (l ++ c :: e :: r).Nodup) (hc : g c = f e)
    (ho : ∀ i, i ≠ c → f i = g i) : Links g p (l ++ c :: r) none := by
  obtain ⟨-, hnd₂, hndl⟩ := List.nodup_append.1 hnd
  have htail : Links f (f e) r none := by
    obtain ⟨_, -, -, -, hr⟩ := (links_append _ _ _ _ _).1 h
    exact hr
  have hrest : Links g (g c) r none := by
    rw [hc]
    refine links_congr (fun i hi => ho i (fun hic => ?_)) htail
    exact (List.nodup_cons.1 hnd₂).1 (hic ▸ mem_cons_of_mem e hi)
  exact links_splice h (fun i hi => ho i (fun hic => hndl i hi c mem_cons_self hic)) hrest

def follow (next : α → Option α) : Nat → Option α → Option (List α)
  | _, none => some []
  | 0, some _ => none
  | n + 1, some a => (follow next n (next a)).map (a :: ·)

theorem follow_eq (next : α → Option α) : ∀ (l : List α) (n : Nat) (p : Option α),
    Links next p l none → l.length ≤ n → follow next n p = some l
  | [], n, p, h, _ => by rw [links_nil] at h; subst h; cases n <;> rfl
  | a :: l, 0, _, _, hn => by simp at hn
  | a :: l, n + 1, p, h, hn => by
    obtain ⟨rfl, hl⟩ := h
    have hn' : l.length ≤ n := by simpa using hn
    simp only [follow, follow_eq next l n _ hl hn', Option.map_some]

/-! ## Bins -/

def flat (bins : List (α × List α)) : List α := bins.flatMap (fun b => b.1 :: b.2)

@[simp] theorem flat_nil : flat ([] : List (α × List α)) = [] := rfl

@[simp] theorem flat_cons (b : α × List α) (bins : List (α × List α)) :
    flat (b :: bins) = b.1 :: (b.2 ++ flat bins) := rfl

@[simp] theorem flat_append (bs cs : List (α × List α)) : flat (bs ++ cs) = flat bs ++ flat cs :=
  List.flatMap_append

theorem mem_flat {bins : List (α × List α)} {a : α} :
    a ∈ flat bins ↔ ∃ b ∈ bins, a = b.1 ∨ a ∈ b.2 := by
  simp [flat, List.mem_flatMap]

theorem top_mem_flat {bins : List (α × List α)} {a : α} (h : a ∈ bins.map Prod.fst) : a ∈ flat bins := by
  obtain ⟨b, hb, rfl⟩ := List.mem_map.1 h
  exact mem_flat.2 ⟨b, hb, Or.inl rfl⟩

theorem length_le_flat : ∀ (bins : List (α × List α)), bins.length ≤ (flat bins).length
  | [] => Nat.le_refl 0
  | b :: bins => by
    have := length_le_flat bins
    simp only [flat_cons, List.length_cons, List.length_append]
    omega

theorem stack_length_lt_flat {bins : List (α × List α)} {b : α × List α} (h : b ∈ bins) :
    b.2.length < (flat bins).length := by
  obtain ⟨pre, post, rfl⟩ := List.append_of_mem h
  simp only [flat_append, flat_cons, List.length_append, List.length_cons]
  omega

/-- **A list of bins laid out by two successor functions**, one through the tops, one down each stack. -/
structure BinLinks (nextBin nextInBin : α → Option α) (head : Option α) (bins : List (α × List α)) :
    Prop where
  tops : Links nextBin head (bins.map Prod.fst) none
  members : ∀ b ∈ bins, Links nextInBin (nextInBin b.1) b.2 none

section

variable {nextBin nextInBin : α → Option α} {p : Option α}

theorem BinLinks.head_eq {bins : List (α × List α)}
    (h : BinLinks nextBin nextInBin p bins) : p = bins.head?.map Prod.fst := by
  cases bins with
  | nil => exact h.tops
  | cons b bins => exact h.tops.1

theorem BinLinks.suffix {pre post : List (α × List α)}
    (h : BinLinks nextBin nextInBin p (pre ++ post)) :
    BinLinks nextBin nextInBin (post.head?.map Prod.fst) post := by
  have ht := h.tops
  rw [List.map_append, links_append] at ht
  obtain ⟨r, -, ht⟩ := ht
  have hb : BinLinks nextBin nextInBin r post := ⟨ht, fun b hb => h.members b (List.mem_append_right pre hb)⟩
  exact hb.head_eq ▸ hb

theorem BinLinks.tops_upto {pre post : List (α × List α)}
    (h : BinLinks nextBin nextInBin p (pre ++ post)) : ∃ r, Links nextBin p (pre.map Prod.fst) r := by
  have ht := h.tops
  rw [List.map_append, links_append] at ht
  obtain ⟨r, ht, -⟩ := ht
  exact ⟨r, ht⟩

end

variable {κ : Type} [LinearOrder κ]

/-- **Bins in strictly increasing key order**, each of one key throughout. -/
structure BinSorted (key : α → κ) (bins : List (α × List α)) : Prop where
  increasing : bins.Pairwise (fun b c => key b.1 < key c.1)
  sameKey : ∀ b ∈ bins, ∀ a ∈ b.2, key a = key b.1

variable {key : α → κ} {e : α} {l : List α} {b : α × List α} {bins pre post : List (α × List α)}

theorem binSorted_cons :
    BinSorted key (b :: bins) ↔
      (∀ c ∈ bins, key b.1 < key c.1) ∧ (∀ a ∈ b.2, key a = key b.1) ∧ BinSorted key bins := by
  constructor
  · rintro ⟨h1, h2⟩
    rw [pairwise_cons] at h1
    exact ⟨h1.1, h2 b mem_cons_self, h1.2, fun c hc => h2 c (mem_cons_of_mem b hc)⟩
  · rintro ⟨h1, h2, h3⟩
    refine ⟨pairwise_cons.2 ⟨h1, h3.increasing⟩, fun c hc => ?_⟩
    rcases mem_cons.1 hc with rfl | hc
    · exact h2
    · exact h3.sameKey c hc

theorem binSorted_append {bs cs : List (α × List α)} :
    BinSorted key (bs ++ cs) ↔
      BinSorted key bs ∧ BinSorted key cs ∧ ∀ b ∈ bs, ∀ c ∈ cs, key b.1 < key c.1 := by
  constructor
  · rintro ⟨h1, h2⟩
    obtain ⟨hb, hc, hbc⟩ := pairwise_append.1 h1
    exact ⟨⟨hb, fun b hb => h2 b (List.mem_append_left cs hb)⟩,
      ⟨hc, fun c hc => h2 c (List.mem_append_right bs hc)⟩, hbc⟩
  · rintro ⟨hb, hc, hbc⟩
    refine ⟨pairwise_append.2 ⟨hb.increasing, hc.increasing, hbc⟩, fun b hm => ?_⟩
    rcases List.mem_append.1 hm with hm | hm
    · exact hb.sameKey b hm
    · exact hc.sameKey b hm

theorem BinSorted.key_eq (h : BinSorted key bins) (hb : b ∈ bins) {a : α} (ha : a = b.1 ∨ a ∈ b.2) : key a = key b.1 := by
  rcases ha with rfl | ha
  · rfl
  · exact h.sameKey b hb a ha

theorem BinSorted.congr {key key' : α → κ} (h : BinSorted key bins) (hk : ∀ a ∈ flat bins, key' a = key a) :
    BinSorted key' bins := by
  have htop : ∀ b ∈ bins, key' b.1 = key b.1 := fun b hb => hk b.1 (mem_flat.2 ⟨b, hb, Or.inl rfl⟩)
  refine ⟨h.increasing.imp_of_mem (fun hb hc hbc => ?_), fun b hb a ha => ?_⟩
  · rw [htop _ hb, htop _ hc]
    exact hbc
  · rw [hk a (mem_flat.2 ⟨b, hb, Or.inr ha⟩), htop b hb]
    exact h.sameKey b hb a ha

theorem BinSorted.pairwise_le : ∀ {bins : List (α × List α)},
    BinSorted key bins → (flat bins).Pairwise (fun a b => key a ≤ key b)
  | [], _ => List.Pairwise.nil
  | b :: bins, h => by
    obtain ⟨h1, h2, h3⟩ := binSorted_cons.1 h
    have hafter : ∀ c ∈ flat bins, key b.1 < key c := by
      intro c hc
      obtain ⟨d, hd, hcd⟩ := mem_flat.1 hc
      rw [h3.key_eq hd hcd]
      exact h1 d hd
    rw [flat_cons, pairwise_cons, pairwise_append]
    refine ⟨fun c hc => ?_, ?_, BinSorted.pairwise_le h3, fun a ha c hc => ?_⟩
    · rcases List.mem_append.1 hc with hc | hc
      · exact le_of_eq (h2 c hc).symm
      · exact le_of_lt (hafter c hc)
    · exact List.pairwise_of_forall_mem_list (fun a ha c hc => le_of_eq ((h2 a ha).trans (h2 c hc).symm))
    · exact le_of_lt ((h2 a ha) ▸ hafter c hc)

theorem BinSorted.mem_cases (h : BinSorted key (b :: bins)) (he : e ∈ flat (b :: bins)) :
    ((e = b.1 ∨ e ∈ b.2) ∧ key b.1 = key e) ∨ (e ∈ flat bins ∧ key b.1 < key e) := by
  obtain ⟨c, hc, hec⟩ := mem_flat.1 he
  have hk := h.key_eq hc hec
  rcases mem_cons.1 hc with rfl | hc
  · exact Or.inl ⟨hec, hk.symm⟩
  · exact Or.inr ⟨mem_flat.2 ⟨c, hc, hec⟩, hk ▸ (binSorted_cons.1 h).1 c hc⟩

theorem BinSorted.top_notMem {c : α × List α} (h : BinSorted key (pre ++ c :: post)) : c.1 ∉ pre.map Prod.fst := by
  intro hm
  obtain ⟨b, hb, hbc⟩ := List.mem_map.1 hm
  have hlt := (binSorted_append.1 h).2.2 b hb c mem_cons_self
  rw [hbc] at hlt
  exact lt_irrefl _ hlt

/-- Insert on top of the nodes of the same key, after all smaller keys. -/
def insertTop (key : α → κ) (e : α) (l : List α) : List α :=
  l.takeWhile (fun a => decide (key a < key e)) ++ e :: l.dropWhile (fun a => decide (key a < key e))

theorem insertTop_append {m : List α} (hl : ∀ a ∈ l, key a < key e) (hm : ∀ a ∈ m.head?, ¬ key a < key e) :
    insertTop key e (l ++ m) = l ++ e :: m := by
  have hl' : ∀ a ∈ l, decide (key a < key e) = true := fun a ha => decide_eq_true (hl a ha)
  have htake : m.takeWhile (fun a => decide (key a < key e)) = [] := by
    cases m with
    | nil => rfl
    | cons a m => simp [hm a (by simp)]
  have hdrop : m.dropWhile (fun a => decide (key a < key e)) = m := by
    cases m with
    | nil => rfl
    | cons a m => simp [hm a (by simp)]
  unfold insertTop
  rw [List.takeWhile_append_of_pos hl', List.dropWhile_append_of_pos hl', htake, hdrop, List.append_nil]

theorem mem_insertTop {x : α} :
    x ∈ insertTop key e l ↔ x = e ∨ x ∈ l := by
  conv => rhs; rw [← List.takeWhile_append_dropWhile (p := fun a => decide (key a < key e)) (l := l)]
  simp only [insertTop, List.mem_append, mem_cons]
  tauto

theorem nodup_insertTop (hl : l.Nodup) (he : e ∉ l) :
    (insertTop key e l).Nodup := by
  have hsplit := List.takeWhile_append_dropWhile (p := fun a => decide (key a < key e)) (l := l)
  have hperm : (insertTop key e l).Perm (e :: l) := by
    conv => rhs; rw [← hsplit]
    exact List.perm_middle
  exact hperm.nodup_iff.2 (List.nodup_cons.2 ⟨he, hl⟩)

theorem pairwise_insertTop {R : α → α → Prop}
    (hs : l.Pairwise (fun a b => key a ≤ key b)) (hR : l.Pairwise R) (hlt : ∀ a ∈ l, key a < key e → R a e)
    (hge : ∀ a ∈ l, ¬ key a < key e → R e a) : (insertTop key e l).Pairwise R := by
  have hsplit := List.takeWhile_append_dropWhile (p := fun a => decide (key a < key e)) (l := l)
  generalize htk : l.takeWhile (fun a => decide (key a < key e)) = t at hsplit
  generalize hdr : l.dropWhile (fun a => decide (key a < key e)) = d at hsplit
  have ht : ∀ a ∈ t, key a < key e := fun a ha => by
    rw [← htk] at ha
    simpa using List.mem_takeWhile_imp ha
  have hd : ∀ a ∈ d, ¬ key a < key e := by
    intro a ha
    cases d with
    | nil => cases ha
    | cons x d =>
      have hx : ¬ key x < key e := by
        have := List.head_dropWhile_not (fun a => decide (key a < key e)) (l := l) (by rw [hdr]; simp)
        simpa [hdr] using this
      rw [← hsplit, pairwise_append, pairwise_cons] at hs
      rcases mem_cons.1 ha with rfl | ha
      · exact hx
      · exact fun hc => hx (lt_of_le_of_lt (hs.2.1.1 a ha) hc)
  unfold insertTop
  rw [htk, hdr]
  rw [← hsplit] at hR hlt hge
  obtain ⟨hRt, hRd, hRtd⟩ := pairwise_append.1 hR
  refine pairwise_append.2 ⟨hRt, pairwise_cons.2 ⟨fun a ha => ?_, hRd⟩, fun a ha b hb => ?_⟩
  · exact hge a (List.mem_append_right t ha) (hd a ha)
  · rcases mem_cons.1 hb with rfl | hb
    · exact hlt a (List.mem_append_left d ha) (ht a ha)
    · exact hRtd a ha b hb

/-! ## One node more, one node less -/

/-- Put a node in front of the bins: on top of the first bin when its key is not smaller, else as a bin of its own. -/
def pushBin (key : α → κ) (e : α) : List (α × List α) → List (α × List α)
  | [] => [(e, [])]
  | b :: bins => if key e < key b.1 then (e, []) :: b :: bins else (e, b.1 :: b.2) :: bins

theorem flat_pushBin (key : α → κ) (e : α) (bins : List (α × List α)) :
    flat (pushBin key e bins) = e :: flat bins := by
  cases bins with
  | nil => rfl
  | cons b bins => rw [pushBin]; split <;> simp

theorem binSorted_pushBin (h : BinSorted key (pre ++ post)) (hpre : ∀ b ∈ pre, key b.1 < key e)
    (hpost : ∀ b ∈ post.head?, ¬ key b.1 < key e) : BinSorted key (pre ++ pushBin key e post) := by
  obtain ⟨h1, h2, h3⟩ := binSorted_append.1 h
  cases post with
  | nil =>
    refine binSorted_append.2 ⟨h1, binSorted_cons.2 ⟨by simp, by simp, h2⟩, fun b hb c hc => ?_⟩
    simp only [pushBin, List.mem_singleton] at hc
    rw [hc]
    exact hpre b hb
  | cons t bins =>
    have ht : key e ≤ key t.1 := not_lt.1 (hpost t rfl)
    obtain ⟨ht1, ht2, ht3⟩ := binSorted_cons.1 h2
    rw [pushBin]
    split
    · rename_i hlt
      refine binSorted_append.2 ⟨h1, binSorted_cons.2 ⟨fun c hc => ?_, by simp, h2⟩, fun b hb c hc => ?_⟩
      · rcases mem_cons.1 hc with rfl | hc
        · exact hlt
        · exact lt_trans hlt (ht1 c hc)
      · rcases mem_cons.1 hc with rfl | hc
        · exact hpre b hb
        · exact h3 b hb c hc
    · rename_i hlt
      have he : key e = key t.1 := le_antisymm ht (not_lt.1 hlt)
      refine binSorted_append.2 ⟨h1, binSorted_cons.2 ⟨fun c hc => ?_, fun a ha => ?_, ht3⟩, fun b hb c hc => ?_⟩
      · exact he ▸ ht1 c hc
      · rcases mem_cons.1 ha with rfl | ha
        · exact he.symm
        · exact (ht2 a ha).trans he.symm
      · rcases mem_cons.1 hc with rfl | hc
        · exact hpre b hb
        · exact h3 b hb c (mem_cons_of_mem t hc)

def dropItem [DecidableEq α] (e : α) : List (α × List α) → List (α × List α)
  | [] => []
  | (t, r) :: bins =>
    if e = t then
      match r with
      | [] => bins
      | t' :: r' => (t', r') :: bins
    else (t, r.erase e) :: bins

theorem flat_dropItem [DecidableEq α] {t : α} {r : List α} (h : e = t ∨ e ∈ r) :
    flat (dropItem e ((t, r) :: bins)) = (flat ((t, r) :: bins)).erase e := by
  simp only [dropItem]
  split
  · rename_i he
    subst he
    cases r <;> simp
  · rename_i he
    have hr : e ∈ r := h.resolve_left he
    simp only [flat_cons]
    rw [List.erase_cons_tail (by simpa using Ne.symm he), List.erase_append_left _ hr]

theorem binSorted_dropItem [DecidableEq α] {t : α} {r : List α} (h : BinSorted key (pre ++ (t, r) :: bins)) :
    BinSorted key (pre ++ dropItem e ((t, r) :: bins)) := by
  obtain ⟨h1, h2, h3⟩ := binSorted_append.1 h
  obtain ⟨ht1, ht2, ht3⟩ := binSorted_cons.1 h2
  simp only [dropItem]
  split
  · cases r with
    | nil => exact binSorted_append.2 ⟨h1, ht3, fun b hb c hc => h3 b hb c (mem_cons_of_mem _ hc)⟩
    | cons t' r' =>
      have ht' : key t' = key t := ht2 t' mem_cons_self
      refine binSorted_append.2 ⟨h1, binSorted_cons.2 ⟨fun c hc => ?_, fun a ha => ?_, ht3⟩, fun b hb c hc => ?_⟩
      · exact ht' ▸ ht1 c hc
      · exact (ht2 a (mem_cons_of_mem t' ha)).trans ht'.symm
      · rcases mem_cons.1 hc with rfl | hc
        · exact ht' ▸ h3 b hb _ mem_cons_self
        · exact h3 b hb c (mem_cons_of_mem _ hc)
  · refine binSorted_append.2 ⟨h1, binSorted_cons.2 ⟨ht1, fun a ha => ht2 a (List.mem_of_mem_erase ha), ht3⟩, ?_⟩
    intro b hb c hc
    rcases mem_cons.1 hc with rfl | hc
    · exact h3 b hb (t, r) mem_cons_self
    · exact h3 b hb c (mem_cons_of_mem _ hc)

end Chain
