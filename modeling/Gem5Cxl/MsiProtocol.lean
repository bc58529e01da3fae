import Gem5Cxl.Msi
import Mathlib.Logic.Function.Basic
import Mathlib.Data.Finset.Insert
/-!
# MsiProtocol — who may read and write a line, as the directory and the messages under way say

What matters of a cache, for the protocol, is its standing: whether the directory counts it a sharer, whether it has been
granted the line or waits for it from an earlier owner (`chained`), what it is to pass on (`fwd`), and whether it is to
invalidate its copy (`inv`) or has sent the acknowledgement (`ack`).  Of the chained caches one holds the token: the
others wait for the line from a cache that is to forward it to them (`source`).  The token's holder may have to collect
acknowledgements first (`head`).

`Coherent` ties the standings to the directory's entry.  Each lemma below is one thing that can happen to them.
-/
namespace Gem5.Msi

open Function (update update_of_ne update_self)

inductive Kind where
  | getS
  | getM
deriving DecidableEq, Repr

/-- The acknowledgements a cache still needs: as many as the sharers that the directory will report, less those it
has, or a number. -/
inductive Owed where
  | memory (got : Nat)
  | number (n : Int)
deriving DecidableEq, Repr

def Owed.amount (sharers : Nat) : Owed → Int
  | .memory got => sharers - got
  | .number n => n

@[ext]
structure Standings (C : Type) where
  sharer : C → Bool
  chained : C → Bool
  head : C → Option Owed
  source : C → Option C
  fwd : C → Option (Kind × C)
  inv : C → Option C
  ack : C → Option C
  mem : C → Bool

inductive MemQueue (C : Type) where
  | idle
  | read (r : C)
  | data (r : C)
  | write
  | ack
deriving DecidableEq, Repr

variable {C : Type}

def Standings.token (t : Standings C) (c : C) : Prop := t.chained c = true ∧ t.source c = none

def MemOk (dirState : DirState) (chained : C → Bool) (mq : MemQueue C) : Prop :=
  match dirState with
  | .I | .S | .M | .S_D => mq = .idle
  | .S_m => ∃ r, (mq = .read r ∨ mq = .data r) ∧ chained r = false
  | .M_m => ∃ r, (mq = .read r ∨ mq = .data r) ∧ chained r = true
  | .SS_m | .MI_m => mq = .write ∨ mq = .ack

/-- **The standings agree with the directory and with each other.**  `toDir` is the cache whose data is under way to the
directory. -/
structure Coherent (dir : DirEntry C) (t : Standings C) (toDir : Option C) (mq : MemQueue C) : Prop where
  head_token : ∀ c, t.head c ≠ none → t.token c
  head_memory : ∀ c n, t.head c = some (.memory n) → t.mem c = true
  fwd_chained : ∀ c, t.fwd c ≠ none → t.chained c = true
  sharer_chained : ∀ c, t.sharer c = true → t.chained c = true → ∃ n, t.fwd c = some (.getS, n)
  inv_token : ∀ c, t.inv c ≠ none → ¬ t.token c
  share : dir.dirState ≠ .M_m → ∀ c, c ∈ dir.sharers ↔ t.sharer c = true
  shareM : dir.dirState = .M_m → ∀ c, t.sharer c = false
  own : ∀ c, c ∈ dir.owner ↔ t.chained c = true ∧ t.fwd c = none
  owned : dir.dirState = .M ∨ dir.dirState = .M_m → ∃ o, dir.owner = {o}
  unowned : dir.dirState ≠ .M → dir.dirState ≠ .M_m → dir.owner = ∅
  unshared : dir.dirState = .I ∨ dir.dirState = .M ∨ dir.dirState = .MI_m → dir.sharers = ∅
  unique : ∀ c c', t.token c → t.token c' → c = c'
  tokenAt : ∀ c, t.token c → dir.dirState = .M ∨ dir.dirState = .M_m ∨ (dir.dirState = .S_D ∧ toDir = none)
  source : ∀ x n, t.source n = some x ↔ ∃ k, t.fwd x = some (k, n)
  kind : ∀ x n k, t.fwd x = some (k, n) → (k = .getS ↔ t.chained n = false)
  fwdGetS : ∀ x n, t.fwd x = some (.getS, n) → dir.dirState = .S_D ∧ toDir = none
  fwdGetS_unique : ∀ x n x' n', t.fwd x = some (.getS, n) → t.fwd x' = some (.getS, n') → x = x'
  waiting : dir.dirState = .S_D → toDir = none → ∀ c, t.sharer c = true →
    t.source c ≠ none ∨ ∃ n, t.fwd c = some (.getS, n)
  toDirAt : toDir ≠ none → dir.dirState = .S_D
  exclusive : ∀ c, t.inv c ≠ none → t.ack c = none
  toHead : ∀ c h, t.inv c = some h ∨ t.ack c = some h → t.head h ≠ none
  pending : ∃ p : Finset C, (∀ c, c ∈ p ↔ t.inv c ≠ none ∨ t.ack c ≠ none) ∧
    ∀ h o, t.head h = some o → o.amount dir.sharers.card = p.card
  mem : ∀ c, t.mem c = true ↔ mq = .read c ∨ mq = .data c
  mem_source : ∀ c, t.mem c = true → t.source c = none
  memOk : MemOk dir.dirState t.chained mq

theorem of_update_eq {α β : Type} [DecidableEq α] {f : α → β} {c y : α} {v w : β} (h : update f c v y = w) (hv : v ≠ w) :
    y ≠ c ∧ f y = w := by
  have hy : y ≠ c := by
    rintro rfl
    exact hv (by rwa [update_self] at h)
  exact ⟨hy, by rwa [update_of_ne hy] at h⟩

theorem update_ne_none {α β : Type} [DecidableEq α] {f : α → Option β} {c y : α} (h : update f c none y ≠ none) :
    y ≠ c ∧ f y ≠ none := by
  obtain ⟨b, hb⟩ := Option.ne_none_iff_exists'.1 h
  obtain ⟨hy, hf⟩ := of_update_eq hb (by simp)
  exact ⟨hy, by simp [hf]⟩

namespace Coherent

variable {dir : DirEntry C} {t : Standings C} {toDir : Option C} {mq : MemQueue C}

variable {c x o r : C}

section Facts

variable (h : Coherent dir t toDir mq)
include h

theorem token_of_head {ow : Owed} (hc : t.head c = some ow) : t.token c := h.head_token c (by simp [hc])

/-- A cache that is to invalidate its copy, or has, is owed to the one head there is. -/
theorem head_of_pending (hc : t.inv c ≠ none ∨ t.ack c ≠ none) :
    ∃ x, t.head x ≠ none := by
  rcases hc with hc | hc
  · obtain ⟨x, hx⟩ := Option.ne_none_iff_exists'.1 hc
    exact ⟨x, h.toHead c x (.inl hx)⟩
  · obtain ⟨x, hx⟩ := Option.ne_none_iff_exists'.1 hc
    exact ⟨x, h.toHead c x (.inr hx)⟩

/-- **Nobody is to invalidate** while the token's holder collects nothing. -/
theorem quiet_of_token (hx : t.token x) (hh : t.head x = none) (c : C) :
    t.inv c = none ∧ t.ack c = none := by
  by_contra hc
  obtain ⟨y, hy⟩ := h.head_of_pending (c := c) (by tauto)
  obtain rfl := h.unique x y hx (h.head_token y hy)
  exact hy hh

/-- **Nobody is to invalidate** while there is no token. -/
theorem quiet_of_noToken (hn : ∀ c, ¬ t.token c) (c : C) :
    t.inv c = none ∧ t.ack c = none := by
  by_contra hc
  obtain ⟨y, hy⟩ := h.head_of_pending (c := c) (by tauto)
  exact hn y (h.head_token y hy)

/-- **A token's holder that collects nothing**: no other cache has a copy or is about to. -/
theorem alone (hx : t.token x) (hh : t.head x = none) (hc : c ≠ x) :
    ¬ t.token c ∧ t.inv c = none ∧ (t.sharer c = true → t.source c ≠ none ∨ ∃ n, t.fwd c = some (.getS, n)) := by
  refine ⟨fun ht => hc (h.unique c x ht hx), (h.quiet_of_token hx hh c).1, fun hs => ?_⟩
  rcases h.tokenAt x hx with hM | hM | ⟨hS, htd⟩
  · have := (h.share (by simp [hM]) c).2 hs
    rw [h.unshared (.inr (.inl hM))] at this
    cases this
  · rw [h.shareM hM c] at hs
    cases hs
  · exact h.waiting hS htd c hs

theorem noToken (h1 : dir.dirState ≠ .M) (h2 : dir.dirState ≠ .M_m)
    (h3 : dir.dirState ≠ .S_D ∨ toDir ≠ none) (c : C) : ¬ t.token c := by
  intro hc
  rcases h.tokenAt c hc with hs | hs | ⟨hs, htd⟩
  · exact h1 hs
  · exact h2 hs
  · rcases h3 with h3 | h3
    · exact h3 hs
    · exact h3 htd

theorem memory_head {n : Nat} (hc : t.head c = some (.memory n)) :
    dir.dirState = .M_m := by
  have hm := (h.mem c).1 (h.head_memory c n hc)
  have ht := (h.token_of_head hc).1
  have hok := h.memOk
  cases hs : dir.dirState <;> simp only [hs, MemOk] at hok <;> grind

theorem noMemory (hx : t.token x) (hm : t.mem x = false) : dir.dirState ≠ .M_m := by
  intro hs
  have hok := h.memOk
  simp only [hs, MemOk] at hok
  obtain ⟨r, hr, hc⟩ := hok
  have hmr := (h.mem r).2 hr
  obtain rfl := h.unique x r hx ⟨hc, h.mem_source r hmr⟩
  rw [hm] at hmr
  cases hmr

/-- The number of sharers matters only while the directory is to report it. -/
theorem pending_of_ne (hs : dir.dirState ≠ .M_m) (n : Nat) : ∃ p : Finset C,
    (∀ c, c ∈ p ↔ t.inv c ≠ none ∨ t.ack c ≠ none) ∧ ∀ h o, t.head h = some o → o.amount n = p.card := by
  obtain ⟨p, hp, hn⟩ := h.pending
  refine ⟨p, hp, fun y o hy => ?_⟩
  cases o with
  | memory n => exact absurd (h.memory_head hy) hs
  | number n => exact hn y _ hy

theorem fwdGetS_ne (hSD : dir.dirState ≠ .S_D) (x n : C) : t.fwd x ≠ some (.getS, n) := fun hx => hSD (h.fwdGetS x n hx).1

theorem toDir_eq_none (hSD : dir.dirState ≠ .S_D) : toDir = none := by
  by_contra htd
  exact hSD (h.toDirAt htd)

theorem sharer_of_M (hs : dir.dirState = .M) (y : C) : t.sharer y = false := by
  have := h.share (by simp [hs]) y
  rw [h.unshared (.inr (.inl hs))] at this
  simpa using this

theorem idle (hs : dir.dirState = .I ∨ dir.dirState = .S ∨ dir.dirState = .M ∨ dir.dirState = .S_D) :
    mq = .idle ∧ ∀ y, t.mem y = false := by
  have hidle : mq = .idle := by
    have := h.memOk
    rcases hs with hs | hs | hs | hs <;> simpa only [hs, MemOk] using this
  refine ⟨hidle, fun y => ?_⟩
  have := h.mem y
  simp only [hidle, reduceCtorEq, or_self, iff_false] at this
  simpa using this

theorem head_of_token (hx : t.token x) (hh : t.head x = none) (y : C) : t.head y = none := by
  by_contra hy
  obtain rfl := h.unique x y hx (h.head_token y hy)
  exact hy hh

theorem ne_of_fwd {n : C} {k : Kind} (hf : t.fwd x = some (k, n)) (hc : t.source c = none) : n ≠ c := by
  rintro rfl
  have := (h.source x n).2 ⟨k, hf⟩
  rw [hc] at this
  cases this

end Facts

variable [DecidableEq C]

/-! ## What can happen -/

theorem ackInv (h : Coherent dir t toDir mq) (hc : t.inv c = some x) :
    Coherent dir { t with inv := update t.inv c none, ack := update t.ack c (some x) } toDir mq := by
  have hx := h.toHead c x (.inl hc)
  refine { h with inv_token := ?_, exclusive := ?_, toHead := ?_, pending := ?_ }
  · exact fun y hy => h.inv_token y (update_ne_none hy).2
  · intro y hy
    obtain ⟨hyc, hy⟩ := update_ne_none hy
    simpa [hyc] using h.exclusive y hy
  · intro y z hy
    by_cases hyc : y = c
    · subst hyc
      simp only [update_self, reduceCtorEq, Option.some.injEq, false_or] at hy
      exact hy ▸ hx
    · exact h.toHead y z (by simpa [hyc] using hy)
  · obtain ⟨p, hp, hn⟩ := h.pending
    refine ⟨p, fun y => ?_, hn⟩
    by_cases hyc : y = c
    · subst hyc
      simp [hp, hc]
    · simpa [hyc] using hp y

def passed (t : Standings C) (x n : C) : Standings C :=
  { t with
    chained := Function.update t.chained x false
    fwd := Function.update t.fwd x none
    source := Function.update t.source n none }

section Pass

variable {x n : C} {k : Kind}

variable (h : Coherent dir t toDir mq) (hx : t.token x)
include h hx

theorem passed_token_iff (y : C) :
    (passed t x n).token y → y = n ∧ t.chained n = true := by
  rintro ⟨h1, h2⟩
  obtain ⟨hyx, hch⟩ := of_update_eq h1 (by simp)
  by_cases hyn : y = n
  · exact ⟨hyn, hyn ▸ hch⟩
  · exact absurd (h.unique y x ⟨hch, by simpa [passed, hyn] using h2⟩ hx) hyx

theorem pass (hh : t.head x = none) (hf : t.fwd x = some (k, n))
    {toDir' : Option C}
    (htok : t.chained n = true → dir.dirState = .M ∨ dir.dirState = .M_m ∨ (dir.dirState = .S_D ∧ toDir' = none))
    (hto : ∀ y m, y ≠ x → t.fwd y = some (.getS, m) → dir.dirState = .S_D ∧ toDir' = none)
    (hwait : dir.dirState = .S_D → toDir' = none → ∀ c, t.sharer c = true →
      c ≠ x ∧ (c ≠ n ∧ t.source c ≠ none ∨ ∃ m, t.fwd c = some (.getS, m)))
    (hat : toDir' ≠ none → dir.dirState = .S_D) (hmem : t.mem x = false) : Coherent dir (passed t x n) toDir' mq := by
  have hsrc : t.source n = some x := (h.source x n).2 ⟨k, hf⟩
  have hxn : x ≠ n := by
    rintro rfl
    rw [hx.2] at hsrc
    cases hsrc
  have hquiet := h.quiet_of_token hx hh
  have hhead := h.head_of_token hx hh
  refine { h with
    head_token := fun y hy => absurd (hhead y) hy
    fwd_chained := ?_, sharer_chained := ?_
    inv_token := fun y hy => absurd (hquiet y).1 hy
    own := ?_, unique := ?_, tokenAt := ?_, source := ?_, kind := ?_, fwdGetS := ?_, fwdGetS_unique := ?_
    waiting := ?_, toDirAt := hat, mem_source := ?_, memOk := ?_ }
  · intro y hy
    obtain ⟨hyx, hy⟩ := update_ne_none hy
    simpa [passed, hyx] using h.fwd_chained y hy
  · intro y hs hc
    obtain ⟨hyx, hc⟩ := of_update_eq hc (by simp)
    simpa [passed, hyx] using h.sharer_chained y hs hc
  · intro y
    by_cases hyx : y = x
    · subst hyx
      rw [h.own]
      simp [passed, hf]
    · simpa [passed, hyx] using h.own y
  · intro y y' hy hy'
    rw [(h.passed_token_iff hx y hy).1, (h.passed_token_iff hx y' hy').1]
  · intro y hy
    exact htok (h.passed_token_iff hx y hy).2
  · intro y m
    by_cases hyx : y = x
    · subst hyx
      by_cases hmn : m = n
      · simp [passed, hmn]
      · have : t.source m ≠ some y := by
          intro hm
          obtain ⟨k', hk'⟩ := (h.source y m).1 hm
          rw [hf] at hk'
          simp only [Option.some.injEq, Prod.mk.injEq] at hk'
          exact hmn hk'.2.symm
        simp [passed, hmn, this]
    · by_cases hmn : m = n
      · subst hmn
        have : ¬ ∃ k', t.fwd y = some (k', m) := by
          intro hk'
          have := (h.source y m).2 hk'
          rw [hsrc] at this
          exact hyx (Option.some.inj this).symm
        simpa [passed, hyx] using this
      · simpa [passed, hyx, hmn] using h.source y m
  · intro y m k' hy
    obtain ⟨-, hy⟩ := of_update_eq hy (by simp)
    have hmx : m ≠ x := h.ne_of_fwd hy hx.2
    simpa [passed, hmx] using h.kind y m k' hy
  · intro y m hy
    obtain ⟨hyx, hy⟩ := of_update_eq hy (by simp)
    exact hto y m hyx hy
  · intro y m y' m' hy hy'
    exact h.fwdGetS_unique y m y' m' (of_update_eq hy (by simp)).2 (of_update_eq hy' (by simp)).2
  · intro hS htd c hc
    obtain ⟨hcx, ⟨hcn, hsc⟩ | ⟨m, hm⟩⟩ := hwait hS htd c hc
    · exact .inl (by simpa [passed, hcn] using hsc)
    · exact .inr ⟨m, by simpa [passed, hcx] using hm⟩
  · intro y hy
    by_cases hyn : y = n
    · simp [passed, hyn]
    · simpa [passed, hyn] using h.mem_source y hy
  · have hstate := h.noMemory hx hmem
    have hok := h.memOk
    rcases h.tokenAt x hx with hs | hs | ⟨hs, -⟩
    · simpa only [hs, MemOk] using hok
    · exact absurd hs hstate
    · simpa only [hs, MemOk] using hok

/-- **Another cache gets the line to write.** -/
theorem passM (hh : t.head x = none) (hf : t.fwd x = some (.getM, n))
    (hmem : t.mem x = false) : Coherent dir (passed t x n) toDir mq := by
  refine h.pass hx hh hf (fun _ => h.tokenAt x hx) (fun y m _ hy => h.fwdGetS y m hy) ?_ h.toDirAt hmem
  intro hS htd c hc
  have hcx : c ≠ x := by
    rintro rfl
    obtain ⟨m, hm⟩ := h.sharer_chained c hc hx.1
    rw [hf] at hm
    cases hm
  refine ⟨hcx, ?_⟩
  by_cases hcn : c = n
  · subst hcn
    have hch : t.chained c = true := by
      by_contra hch
      have := (h.kind x c .getM hf).2 (by simpa using hch)
      cases this
    exact .inr (h.sharer_chained c hc hch)
  · rcases h.waiting hS htd c hc with hw | hw
    · exact .inl ⟨hcn, hw⟩
    · exact .inr hw

/-- **Another cache gets the line to read**, and the directory its data. -/
theorem passS (hh : t.head x = none) (hf : t.fwd x = some (.getS, n))
    (hmem : t.mem x = false) : Coherent dir (passed t x n) (some x) mq := by
  have hS := (h.fwdGetS x n hf).1
  have hch : t.chained n = false := (h.kind x n .getS hf).1 rfl
  refine h.pass hx hh hf (fun hn => by rw [hch] at hn; cases hn) (fun y m hyx hy => ?_) (fun _ htd => by cases htd)
    (fun _ => hS) hmem
  exact absurd (h.fwdGetS_unique y m x n hy hf) hyx

end Pass

theorem collected (h : Coherent dir t toDir mq) (hc : t.head c = some (.number 0)) :
    Coherent dir { t with head := update t.head c none } toDir mq := by
  obtain ⟨p, hp, hn⟩ := h.pending
  have hp0 : p = ∅ := by
    have := hn c _ hc
    simp only [Owed.amount] at this
    exact Finset.card_eq_zero.1 (by omega)
  have hnone : ∀ y, t.inv y = none ∧ t.ack y = none := by
    intro y
    have := (hp y).not.1 (by simp [hp0])
    tauto
  refine { h with head_token := ?_, head_memory := ?_, toHead := ?_, pending := ⟨p, hp, ?_⟩ }
  · exact fun y hy => h.head_token y (update_ne_none hy).2
  · exact fun y n hy => h.head_memory y n (of_update_eq hy (by simp)).2
  · intro y z hy
    simp only [hnone y] at hy
    simp at hy
  · exact fun y o hy => hn y o (of_update_eq hy (by simp)).2

theorem takeAck (h : Coherent dir t toDir mq) {o : Owed} {o' : Option Owed} (hx : t.ack x = some c)
    (hc : t.head c = some o) (ho : o' = none ∧ o.amount dir.sharers.card = 1 ∨ ∃ o₁, o' = some o₁ ∧ o₁.amount
    dir.sharers.card = o.amount dir.sharers.card - 1) (hm : ∀ n, o' = some (.memory n) → ∃ n', o = .memory n') :
    Coherent dir { t with head := update t.head c o', ack := update t.ack x none } toDir mq := by
  obtain ⟨p, hp, hn⟩ := h.pending
  have hinv : t.inv x = none := by
    by_contra hi
    rw [h.exclusive x hi] at hx
    cases hx
  have hmem : x ∈ p := (hp x).2 (.inr (by rw [hx]; simp))
  have hcard := Finset.card_erase_add_one hmem
  have honly : ∀ y, y ≠ c → t.head y = none := by
    intro y hy
    by_contra hh
    exact hy (h.unique y c (h.head_token y hh) (h.token_of_head hc))
  have hpc := hn c o hc
  have hpend : ∀ y, y ∈ p.erase x ↔ t.inv y ≠ none ∨ update t.ack x none y ≠ none := by
    intro y
    by_cases hyx : y = x
    · subst hyx
      simp [hinv]
    · simp [hyx, hp]
  refine { h with head_token := ?_, head_memory := ?_, exclusive := ?_, toHead := ?_,
                  pending := ⟨p.erase x, hpend, ?_⟩ }
  · intro y hy
    by_cases hyc : y = c
    · subst hyc
      exact h.token_of_head hc
    · exact h.head_token y (by simpa [hyc] using hy)
  · intro y n hy
    by_cases hyc : y = c
    · subst hyc
      obtain ⟨n', rfl⟩ := hm n (by simpa using hy)
      exact h.head_memory y n' hc
    · exact h.head_memory y n (by simpa [hyc] using hy)
  · intro y hy
    by_cases hyx : y = x
    · simp [hyx]
    · simpa [hyx] using h.exclusive y hy
  · intro y z hy
    have hy' : t.inv y = some z ∨ t.ack y = some z := by
      by_cases hyx : y = x
      · subst hyx
        simp [hinv] at hy
      · simpa [hyx] using hy
    have hyp : y ∈ p.erase x := (hpend y).2 (by
      rcases hy with hy | hy
      · exact .inl (by rw [hy]; simp)
      · exact .inr (by dsimp only at hy; rw [hy]; simp))
    have hz : z = c := by
      by_contra hz
      exact h.toHead y z hy' (honly z hz)
    subst hz
    rcases ho with ⟨rfl, h1⟩ | ⟨o₁, rfl, -⟩
    · have hpos := Finset.card_pos.2 ⟨y, hyp⟩
      omega
    · simp
  · intro y o₂ hy
    by_cases hyc : y = c
    · subst hyc
      rcases ho with ⟨rfl, -⟩ | ⟨o₁, rfl, h1⟩
      · simp at hy
      · obtain rfl : o₁ = o₂ := by simpa using hy
        rw [h1, hpc]
        omega
    · have hyn := honly y hyc
      simp [hyc, hyn] at hy

/-- A cache that the directory has not granted anything. -/
structure Outside (t : Standings C) (c : C) : Prop where
  chained : t.chained c = false
  source : t.source c = none
  fwd : t.fwd c = none
  head : t.head c = none
  mem : t.mem c = false

omit [DecidableEq C] in
/-- Where the line is not granted nobody holds the token, and memory is idle. -/
theorem ungranted (h : Coherent dir t toDir mq) (hs : dir.dirState = .I ∨ dir.dirState = .S) :
    dir.dirState ≠ .M ∧ dir.dirState ≠ .M_m ∧ toDir = none ∧ (∀ y, ¬ t.token y) ∧ (∀ x n, t.fwd x ≠ some (.getS, n)) ∧
      ∀ y, t.mem y = false := by
  have hSD : dir.dirState ≠ .S_D := by rcases hs with hs | hs <;> simp [hs]
  have hM : dir.dirState ≠ .M ∧ dir.dirState ≠ .M_m := by rcases hs with hs | hs <;> simp [hs]
  exact ⟨hM.1, hM.2, h.toDir_eq_none hSD, h.noToken hM.1 hM.2 (.inl hSD), h.fwdGetS_ne hSD, (h.idle (hs.imp_right .inl)).2⟩

theorem mem_asked (hmem : ∀ y, t.mem y = false) (y : C) :
    update t.mem c true y = true ↔ MemQueue.read c = .read y ∨ MemQueue.read c = .data y := by
  by_cases hyc : y = c
  · simp [hyc]
  · simp [hyc, hmem y, Ne.symm hyc]

theorem Outside.mem_source (hc : Outside t c) (hmem : ∀ y, t.mem y = false) (y : C) (hy : update t.mem c true y = true) :
    t.source y = none := by
  by_cases hyc : y = c
  · exact hyc ▸ hc.source
  · simp [hyc, hmem y] at hy

omit [DecidableEq C] in
theorem Outside.ne (hc : Outside t c) (ho : t.chained o = true) : o ≠ c := by
  rintro rfl
  exact Bool.false_ne_true (hc.chained.symm.trans ho)

/-- A cache outside is to have the line from `o`: the cache that has it stays the same. -/
theorem Outside.sourced_iff (hc : Outside t c) {chained : C → Bool} (hch : ∀ y, y ≠ c → chained y = t.chained y) (y : C) :
    chained y = true ∧ update t.source c (some o) y = none ↔ t.token y := by
  by_cases hyc : y = c
  · subst hyc
    simp [Standings.token, hc.chained]
  · rw [hch y hyc, Function.update_of_ne hyc]
    rfl

theorem readMemory (h : Coherent dir t toDir mq) (hs : dir.dirState = .I ∨ dir.dirState = .S) (hc : Outside t c) :
    Coherent { dir with dirState := .S_m, sharers := insert c dir.sharers }
      { t with sharer := update t.sharer c true, mem := update t.mem c true } toDir (.read c) := by
  obtain ⟨hM, hMm, htd, hnt, hnoS, hmem⟩ := h.ungranted hs
  refine { h with
    head_token := fun y hy => absurd (h.head_token y hy) (hnt y)
    head_memory := fun y n hy => absurd (h.token_of_head hy) (hnt y)
    sharer_chained := ?_, share := ?_, shareM := fun e => (by cases e), owned := fun e => by simp at e
    unowned := fun _ _ => h.unowned hM hMm, unshared := fun e => by simp at e
    tokenAt := fun y hy => absurd hy (hnt y)
    fwdGetS := fun x n hx => absurd hx (hnoS x n)
    waiting := fun e => by cases e
    toDirAt := fun e => absurd htd e
    pending := h.pending_of_ne hMm _, mem := mem_asked hmem, mem_source := hc.mem_source hmem
    memOk := ⟨c, .inl rfl, hc.chained⟩ }
  · intro y hy hch
    exact h.sharer_chained y (by simpa [hc.ne hch] using hy) hch
  · intro _ y
    by_cases hyc : y = c
    · simp [hyc]
    · simpa [hyc] using h.share hMm y

section

variable (h : Coherent dir t toDir mq)
include h

omit [DecidableEq C] in
theorem not_owner {y : C} (ho : dir.owner = {o}) (hy : y ≠ o) : ¬ (t.chained y = true ∧ t.fwd y = none) := by
  rwa [← h.own y, ho, Finset.mem_singleton]

theorem source_forward (k : Kind) (hof : t.fwd o = none) (hc : t.source c = none) (x n : C) :
    update t.source c (some o) n = some x ↔ ∃ k', update t.fwd o (some (k, c)) x = some (k', n) := by
  by_cases hxo : x = o
  · subst hxo
    by_cases hnc : n = c
    · simp [hnc]
    · have : t.source n ≠ some x := by
        intro hn
        obtain ⟨k, hk⟩ := (h.source x n).1 hn
        rw [hof] at hk
        cases hk
      simp [hnc, this, Ne.symm hnc]
  · by_cases hnc : n = c
    · subst hnc
      have : ¬ ∃ k, t.fwd x = some (k, n) := fun ⟨_, hk⟩ => h.ne_of_fwd hk hc rfl
      simpa [hxo, Ne.symm hxo] using this
    · simpa [hxo, hnc] using h.source x n

theorem readOwner (hs : dir.dirState = .M) (hown : dir.owner = {o}) (hc : Outside t c) :
    Coherent { dirState := .S_D, sharers := insert c dir.sharers ∪ dir.owner, owner := ∅ }
      { t with
        sharer := update (update t.sharer o true) c true
        fwd := update t.fwd o (some (.getS, c))
        source := update t.source c (some o) } toDir mq := by
  obtain ⟨hoc, hof⟩ := (h.own o).1 (by simp [hown])
  have hoc' := hc.ne hoc
  have hMm : dir.dirState ≠ .M_m := by simp [hs]
  have hSD : dir.dirState ≠ .S_D := by simp [hs]
  have hshare := h.sharer_of_M hs
  have htd := h.toDir_eq_none hSD
  obtain ⟨hidle, hmem⟩ := h.idle (.inr (.inr (.inl hs)))
  have htok := hc.sourced_iff (o := o) fun y _ => rfl
  refine { h with
    head_token := fun y hy => (htok y).2 (h.head_token y hy)
    fwd_chained := ?_, sharer_chained := ?_, inv_token := ?_, share := ?_
    shareM := fun e => (by cases e), own := ?_, owned := fun e => (by simp at e), unowned := fun _ _ => rfl
    unshared := fun e => (by simp at e), unique := fun y y' hy hy' => h.unique y y' ((htok y).1 hy) ((htok y').1 hy')
    tokenAt := fun y _ => .inr (.inr ⟨rfl, htd⟩), source := ?_, kind := ?_
    fwdGetS := fun _ _ _ => ⟨rfl, htd⟩, fwdGetS_unique := ?_, waiting := ?_, toDirAt := fun e => absurd htd e
    pending := h.pending_of_ne hMm _, mem_source := ?_, memOk := hidle }
  · intro y hy
    by_cases hyo : y = o
    · exact hyo ▸ hoc
    · exact h.fwd_chained y (by simpa [hyo] using hy)
  · intro y hy hch
    by_cases hyo : y = o
    · exact ⟨c, by simp [hyo]⟩
    · simp [hyo, hc.ne hch, hshare y] at hy
  · intro y hy ht
    exact h.inv_token y hy ((htok y).1 ht)
  · intro _ y
    by_cases hyc : y = c
    · simp [hyc]
    · by_cases hyo : y = o
      · simp [hyo, hown, hoc']
      · have := (h.share hMm y)
        rw [hshare y] at this
        simp [hyc, hyo, hown, this, hshare y]
  · intro y
    by_cases hyo : y = o
    · simp [hyo]
    · simpa [hyo] using h.not_owner hown hyo
  · exact h.source_forward .getS hof hc.source
  · intro x n k hx
    by_cases hxo : x = o
    · subst hxo
      simp only [update_self, Option.some.injEq, Prod.mk.injEq] at hx
      obtain ⟨rfl, rfl⟩ := hx
      simp [hc.chained]
    · exact h.kind x n k (by simpa [hxo] using hx)
  · intro x n x' n' hx hx'
    have hone : ∀ z m, update t.fwd o (some (.getS, c)) z = some (.getS, m) → z = o := by
      intro z m hz
      by_contra hzo
      exact h.fwdGetS_ne hSD z m (by simpa [hzo] using hz)
    rw [hone x n hx, hone x' n' hx']
  · intro _ _ y hy
    by_cases hyo : y = o
    · exact .inr ⟨c, by simp [hyo]⟩
    · by_cases hyc : y = c
      · exact .inl (by simp [hyc])
      · simp [hyo, hyc, hshare y] at hy
  · intro y hy
    rw [hmem y] at hy
    cases hy

theorem writeOwner (hs : dir.dirState = .M) (hown : dir.owner = {o}) (hc : Outside t c) :
    Coherent { dir with owner := {c} }
      { t with
        chained := update t.chained c true
        fwd := update t.fwd o (some (.getM, c))
        source := update t.source c (some o) } toDir mq := by
  obtain ⟨hoc, hof⟩ := (h.own o).1 (by simp [hown])
  have hoc' := hc.ne hoc
  obtain ⟨hidle, hmem⟩ := h.idle (.inr (.inr (.inl hs)))
  have htok := hc.sourced_iff (o := o) fun y hy => Function.update_of_ne hy true t.chained
  refine { h with
    head_token := fun y hy => (htok y).2 (h.head_token y hy), fwd_chained := ?_
    sharer_chained := fun y hy => by rw [h.sharer_of_M hs y] at hy; cases hy
    inv_token := fun y hy ht => h.inv_token y hy ((htok y).1 ht), own := ?_
    owned := fun _ => ⟨c, rfl⟩, unowned := fun e => absurd hs e
    unique := fun y y' hy hy' => h.unique y y' ((htok y).1 hy) ((htok y').1 hy')
    tokenAt := fun y hy => h.tokenAt y ((htok y).1 hy), source := ?_, kind := ?_, fwdGetS := ?_, fwdGetS_unique := ?_
    waiting := fun e => by rw [hs] at e; cases e
    mem_source := ?_, memOk := ?_ }
  · intro y hy
    by_cases hyc : y = c
    · simp [hyc]
    · by_cases hyo : y = o
      · simpa [hyc, hyo, hoc'] using hoc
      · simpa [hyc] using h.fwd_chained y (by simpa [hyo] using hy)
  · intro y
    by_cases hyc : y = c
    · simp [hyc, Ne.symm hoc', hc.fwd]
    · by_cases hyo : y = o
      · simp [hyo, hoc']
      · simpa [hyc, hyo] using h.not_owner hown hyo
  · exact h.source_forward .getM hof hc.source
  · intro x n k hx
    by_cases hxo : x = o
    · subst hxo
      simp only [update_self, Option.some.injEq, Prod.mk.injEq] at hx
      obtain ⟨rfl, rfl⟩ := hx
      simp
    · have hx' : t.fwd x = some (k, n) := by simpa [hxo] using hx
      simpa [h.ne_of_fwd hx' hc.source] using h.kind x n k hx'
  · exact fun x n hx => h.fwdGetS x n (of_update_eq hx (by simp)).2
  · intro x n x' n' hx hx'
    exact h.fwdGetS_unique x n x' n' (of_update_eq hx (by simp)).2 (of_update_eq hx' (by simp)).2
  · intro y hy
    rw [hmem y] at hy
    cases hy
  · simpa only [hs, MemOk] using hidle

/-- **A write is granted from memory**: the sharers are to invalidate their copies. -/
theorem writeMemory (hs : dir.dirState = .I ∨ dir.dirState = .S) (hc : Outside t c) :
    Coherent { dirState := .M_m, sharers := dir.sharers.erase c, owner := insert c dir.owner }
      { t with
        sharer := fun _ => false
        chained := update t.chained c true
        head := update t.head c (some (.memory 0))
        inv := fun y => if y ≠ c ∧ t.sharer y = true then some c else t.inv y
        mem := update t.mem c true } toDir (.read c) := by
  obtain ⟨hM, hMm, htd, hnt, hnoS, hmem⟩ := h.ungranted hs
  have hquiet := h.quiet_of_noToken hnt
  have hhead : ∀ y, t.head y = none := by
    intro y
    by_contra hy
    exact hnt y (h.head_token y hy)
  have howner := h.unowned hM hMm
  -- only the cache that is granted the line holds the token
  have htok : ∀ y, update t.chained c true y = true ∧ t.source y = none → y = c := by
    rintro y ⟨h1, h2⟩
    by_contra hyc
    exact hnt y ⟨by simpa [hyc] using h1, h2⟩
  refine { h with
    head_token := ?_, head_memory := ?_, fwd_chained := ?_
    sharer_chained := fun y hy => by cases hy
    inv_token := ?_, share := fun e => absurd rfl e, shareM := fun _ _ => rfl, own := ?_
    owned := fun _ => ⟨c, by simp [howner]⟩, unowned := fun _ e => absurd rfl e, unshared := fun e => by simp at e
    unique := fun y y' hy hy' => (htok y hy).trans (htok y' hy').symm
    tokenAt := fun _ _ => .inr (.inl rfl), kind := ?_
    fwdGetS := fun x n hx => absurd hx (hnoS x n)
    waiting := fun e => by cases e
    toDirAt := fun e => absurd htd e, exclusive := fun y _ => (hquiet y).2
    toHead := ?_, pending := ⟨dir.sharers.erase c, ?_, ?_⟩, mem := mem_asked hmem, mem_source := hc.mem_source hmem
    memOk := ⟨c, .inl rfl, by simp⟩ }
  · intro y hy
    by_cases hyc : y = c
    · subst hyc
      exact ⟨by simp, hc.source⟩
    · simp [hyc, hhead y] at hy
  · intro y n hy
    by_cases hyc : y = c
    · simp [hyc]
    · simp [hyc, hhead y] at hy
  · intro y hy
    by_cases hyc : y = c
    · simp [hyc]
    · simpa [hyc] using h.fwd_chained y hy
  · intro y hy ht
    obtain rfl := htok y ht
    simp [(hquiet y).1] at hy
  · intro y
    by_cases hyc : y = c
    · simp [hyc, hc.fwd]
    · simpa [hyc] using h.own y
  · intro x n k hx
    simpa [h.ne_of_fwd hx hc.source] using h.kind x n k hx
  · intro y z hy
    by_cases hy' : y ≠ c ∧ t.sharer y = true
    · simp only [if_pos hy', Option.some.injEq, (hquiet y).2, reduceCtorEq, or_false] at hy
      subst hy
      simp
    · simp [hy', (hquiet y).1, (hquiet y).2] at hy
  · intro y
    by_cases hy' : y ≠ c ∧ t.sharer y = true
    · simp [hy', h.share hMm y]
    · have : y ∉ dir.sharers.erase c := by
        rw [Finset.mem_erase, h.share hMm y]
        exact hy'
      simp [hy', (hquiet y).1, (hquiet y).2, this]
  · intro y o hy
    by_cases hyc : y = c
    · subst hyc
      obtain rfl : Owed.memory 0 = o := by simpa using hy
      simp [Owed.amount]
    · simp [hyc, hhead y] at hy

theorem unshare (c : C) (hs : dir.dirState ≠ .M_m) :
    Coherent { dir with sharers := dir.sharers.erase c } { t with sharer := update t.sharer c false } toDir
      mq := by
  have hsharer : ∀ y, update t.sharer c false y = true → t.sharer y = true :=
    fun y hy => (of_update_eq hy (by simp)).2
  refine { h with
    sharer_chained := fun y hy => h.sharer_chained y (hsharer y hy), share := ?_
    shareM := fun e => absurd e hs, unshared := ?_
    waiting := fun e e' y hy => h.waiting e e' y (hsharer y hy), pending := h.pending_of_ne hs _ }
  · intro _ y
    by_cases hyc : y = c
    · simp [hyc]
    · simpa [hyc] using h.share hs y
  · intro e
    simp [h.unshared e]

omit [DecidableEq C] in
/-- **The directory moves between states in which nobody has the line to write**, and memory's part in it changes. -/
theorem settle (hM : dir.dirState ≠ .M) (hMm : dir.dirState ≠ .M_m)
    (hSD : dir.dirState ≠ .S_D ∨ toDir ≠ none) {next : DirState}
    (hnext : next = .I ∧ dir.sharers = ∅ ∨ next = .S ∨ next = .SS_m) {toDir' : Option C} (htd : toDir' = none)
    {mem : C → Bool} {mq' : MemQueue C} (hmem : ∀ y, mem y = true ↔ mq' = .read y ∨ mq' = .data y)
    (hsrc : ∀ y, mem y = true → t.source y = none) (hok : MemOk next t.chained mq') :
    Coherent { dir with dirState := next } { t with mem } toDir' mq' := by
  have hnt := h.noToken hM hMm hSD
  have hget : ∀ x n, t.fwd x ≠ some (.getS, n) := by
    intro x n hx
    obtain ⟨h1, h2⟩ := h.fwdGetS x n hx
    exact hSD.elim (fun e => e h1) (fun e => e h2)
  have hne : next ≠ .M ∧ next ≠ .M_m ∧ next ≠ .S_D := by rcases hnext with ⟨rfl, -⟩ | rfl | rfl <;> simp
  refine { h with
    head_memory := fun y n hy => absurd (h.token_of_head hy) (hnt y)
    share := fun _ => h.share hMm, shareM := fun e => absurd e hne.2.1, owned := fun e => absurd e (by simp [hne])
    unowned := fun _ _ => h.unowned hM hMm, unshared := fun e => ?_
    tokenAt := fun y hy => absurd hy (hnt y), fwdGetS := fun x n hx => absurd hx (hget x n)
    waiting := fun e => absurd e hne.2.2, toDirAt := fun e => absurd htd e
    mem := hmem, mem_source := hsrc, memOk := hok }
  rcases hnext with ⟨-, he⟩ | rfl | rfl
  · exact he
  · simp at e
  · simp at e

omit [DecidableEq C] in
theorem lastShared (hs : dir.dirState = .S) (he : dir.sharers = ∅) :
    Coherent { dir with dirState := .I } t toDir mq := by
  have hSD : dir.dirState ≠ .S_D := by simp [hs]
  exact h.settle (by simp [hs]) (by simp [hs]) (.inl hSD) (.inl ⟨rfl, he⟩) (h.toDir_eq_none hSD) h.mem h.mem_source
    (h.idle (.inr (.inl hs))).1

theorem writeback (hs : dir.dirState = .M) (hc : t.token c) (hh : t.head c = none)
    (hown : c ∈ dir.owner) :
    Coherent { dir with dirState := .MI_m, owner := ∅ } { t with chained := update t.chained c false } toDir
      .write := by
  have hMm : dir.dirState ≠ .M_m := by simp [hs]
  obtain ⟨-, hf⟩ := (h.own c).1 hown
  obtain ⟨o, ho⟩ := h.owned (.inl hs)
  obtain rfl : c = o := by simpa [ho] using hown
  have hquiet := h.quiet_of_token hc hh
  have hSD : dir.dirState ≠ .S_D := by simp [hs]
  have hhead := h.head_of_token hc hh
  obtain ⟨-, hmem⟩ := h.idle (.inr (.inr (.inl hs)))
  have htok : ∀ y, ¬ Standings.token { t with chained := update t.chained c false } y := by
    rintro y ⟨h1, h2⟩
    obtain ⟨hyc, h1⟩ := of_update_eq h1 (by simp)
    exact hyc (h.unique y c ⟨h1, h2⟩ hc)
  refine { h with
    head_token := fun y hy => absurd (hhead y) hy
    fwd_chained := ?_, sharer_chained := ?_
    inv_token := fun y hy => absurd (hquiet y).1 hy
    share := fun _ => h.share hMm, shareM := fun e => (by cases e), own := ?_, owned := fun e => (by simp at e)
    unowned := fun _ _ => rfl, unshared := fun _ => h.unshared (.inr (.inl hs))
    unique := fun y _ hy => absurd hy (htok y), tokenAt := fun y hy => absurd hy (htok y)
    kind := ?_, fwdGetS := fun x n hx => absurd hx (h.fwdGetS_ne hSD x n), waiting := fun e => (by cases e)
    toDirAt := fun e => absurd (h.toDirAt e) hSD, mem := fun y => (by simp [hmem y]), memOk := .inl rfl }
  · intro y hy
    by_cases hyc : y = c
    · exact absurd (hyc ▸ hf) hy
    · simpa [hyc] using h.fwd_chained y hy
  · exact fun y hy hch => h.sharer_chained y hy (of_update_eq hch (by simp)).2
  · intro y
    by_cases hyc : y = c
    · simp [hyc]
    · simpa [hyc] using h.not_owner ho hyc
  · intro x n k hx
    simpa [h.ne_of_fwd hx hc.2] using h.kind x n k hx

omit [DecidableEq C] in
theorem dataArrives (htd : toDir ≠ none) :
    Coherent { dir with dirState := .SS_m } t none .write := by
  have hs := h.toDirAt htd
  obtain ⟨-, hmem⟩ := h.idle (.inr (.inr (.inr hs)))
  exact h.settle (by simp [hs]) (by simp [hs]) (.inr htd) (.inr (.inr rfl)) rfl (fun y => by simp [hmem y]) h.mem_source
    (.inl rfl)

theorem mem_served (hmq : mq = .data r) (y : C) :
    update t.mem r false y = true ↔ MemQueue.idle = .read y ∨ MemQueue.idle = .data y := by
  by_cases hyr : y = r
  · simp [hyr]
  · have := h.mem y
    simp only [hmq, reduceCtorEq, MemQueue.data.injEq, Ne.symm hyr, or_self, iff_false] at this
    simpa [hyr] using this

theorem readDone (hs : dir.dirState = .S_m) (hmq : mq = .data r) :
    Coherent { dir with dirState := .S } { t with mem := update t.mem r false } toDir .idle := by
  have hSD : dir.dirState ≠ .S_D := by simp [hs]
  refine h.settle (by simp [hs]) (by simp [hs]) (.inl hSD) (.inr (.inl rfl)) (h.toDir_eq_none hSD) (h.mem_served hmq)
    (fun y hy => ?_) rfl
  simp [h.mem_served hmq y] at hy

/-- **Memory's data for a write**: the directory reports the sharers. -/
theorem writeDone {got : Nat} (hs : dir.dirState = .M_m) (hmq : mq = .data r)
    (hr : t.head r = some (.memory got)) : Coherent { dir with dirState := .M, sharers := ∅ }
      { t with
        mem := update t.mem r false
        head := update t.head r (some (.number (dir.sharers.card - got))) } toDir .idle := by
  have hrt := h.token_of_head hr
  have hSD : dir.dirState ≠ .S_D := by simp [hs]
  refine { h with
    head_token := ?_, head_memory := ?_, share := ?_, shareM := fun e => (by cases e)
    owned := fun _ => h.owned (.inr hs), unowned := fun e => absurd rfl e, unshared := fun _ => rfl
    tokenAt := fun _ _ => .inl rfl, fwdGetS := fun x n hx => absurd hx (h.fwdGetS_ne hSD x n)
    waiting := fun e => (by cases e), toDirAt := fun e => absurd (h.toDirAt e) hSD, toHead := ?_, pending := ?_
    mem := h.mem_served hmq, mem_source := fun y hy => ?_, memOk := rfl }
  · intro y hy
    by_cases hyr : y = r
    · exact hyr ▸ hrt
    · exact h.head_token y (by simpa [hyr] using hy)
  · intro y n hy
    by_cases hyr : y = r
    · simp [hyr] at hy
    · exact absurd (h.unique y r (h.token_of_head (of_update_eq hy (by simp)).2) hrt) hyr
  · intro _ y
    simp [h.shareM hs y]
  · intro y z hy
    by_cases hzr : z = r
    · simp [hzr]
    · simpa [hzr] using h.toHead y z hy
  · obtain ⟨p, hp, hn⟩ := h.pending
    refine ⟨p, hp, fun y o hy => ?_⟩
    by_cases hyr : y = r
    · subst hyr
      obtain rfl : Owed.number (dir.sharers.card - got) = o := by simpa using hy
      exact hn y _ hr
    · have hy' : t.head y = some o := by simpa [hyr] using hy
      exact absurd (h.unique y r (h.token_of_head hy') hrt) hyr
  · simp [h.mem_served hmq y] at hy

omit [DecidableEq C] in
/-- **Memory has taken a write**: the line is shared, or nobody has it. -/
theorem writeAcked {next : DirState}
    (hs : dir.dirState = .SS_m ∧ next = .S ∨ dir.dirState = .MI_m ∧ next = .I) (hmq : mq = .ack) :
    Coherent { dir with dirState := next } t toDir .idle := by
  have hSD : dir.dirState ≠ .S_D := by rcases hs with ⟨hs, -⟩ | ⟨hs, -⟩ <;> simp [hs]
  refine h.settle ?_ ?_ (.inl hSD) ?_ (h.toDir_eq_none hSD) (fun y => ?_) h.mem_source ?_
  · rcases hs with ⟨hs, -⟩ | ⟨hs, -⟩ <;> simp [hs]
  · rcases hs with ⟨hs, -⟩ | ⟨hs, -⟩ <;> simp [hs]
  · exact hs.elim (fun e => .inr (.inl e.2)) fun e => .inl ⟨e.2, h.unshared (.inr (.inr e.1))⟩
  · simpa only [hmq, reduceCtorEq, or_self] using h.mem y
  · rcases hs with ⟨-, rfl⟩ | ⟨-, rfl⟩ <;> rfl

omit [DecidableEq C] in
theorem serve {mq' : MemQueue C}
    (hmq : (∃ r, mq = .read r ∧ mq' = .data r) ∨ mq = .write ∧ mq' = .ack) : Coherent dir t toDir mq' := by
  refine { h with mem := fun y => ?_, memOk := ?_ }
  · rcases hmq with ⟨r, rfl, rfl⟩ | ⟨rfl, rfl⟩
    · simpa using h.mem y
    · simpa using h.mem y
  · have := h.memOk
    rcases hmq with ⟨r, rfl, rfl⟩ | ⟨rfl, rfl⟩ <;> cases hs : dir.dirState <;> simp_all [MemOk]

end

end Coherent

end Gem5.Msi
