import Gem5Cxl.CompressorLossless
/-!
# CompressorBounds — where decompression reads the dictionary

A pattern keeps the location it was matched at, or -1 if it was matched at none.  A location is below the number of
entries and so inside the dictionary; -1 is read as 255, which is inside no dictionary of a 64-byte line.
-/
namespace Gem5
namespace Compression

open PatternClass

/-- The patterns of the class keep the location they are given, or -1. -/
def PatternClass.Located {n : Nat} (cls : PatternClass n) : Prop :=
  ∀ bytes location, (cls.make bytes location).matchLocation = location ∨ (cls.make bytes location).matchLocation = -1

namespace Compressor

variable {n : Nat} {c : Compressor n} {d d' : Dictionary}

structure Bounded (c : Compressor n) : Prop where
  factory : ∀ cls ∈ c.factory, cls.Located
  last : c.last.Located
  addToDictionary : ∀ d data d', c.addToDictionary d data = .ok d' → d'.entries.length = d.entries.length
  addEntry : ∀ cd p, ∃ q, (c.addEntry cd p).entries = cd.entries ++ [q] ∧ SameValue q p
  finish : ∀ d cd, (c.finish d cd).entries = cd.entries

def InRange (c : Compressor n) (p : Pattern n) : Prop :=
  p.matchLocation = -1 ∨ ∃ i < c.dictionarySize, p.matchLocation = i

theorem Bounded.getPattern (h : c.Bounded) (bytes dict : DictionaryEntry) (location : Int) :
    (c.getPattern bytes dict location).matchLocation = location ∨ (c.getPattern bytes dict location).matchLocation = -1 := by
  rcases c.getPattern_mem bytes dict location with ⟨cls, hcls, -, heq⟩ | heq
  · rw [heq]
    exact h.factory cls hcls bytes location
  · rw [heq]
    exact h.last bytes location

theorem Bounded.choose (h : c.Bounded) (hd : d.entries.length = c.dictionarySize) (bytes : DictionaryEntry) :
    c.InRange (c.choose d bytes) := by
  rcases c.choose_mem d bytes with heq | ⟨i, hi, heq⟩
  · rw [heq]
    exact .inl ((h.getPattern _ _ _).elim id id)
  · rw [heq]
    exact (h.getPattern bytes (d.entries.getD i []) i).symm.imp_right fun hloc => ⟨i, hd ▸ hi.trans_le d.le, hloc⟩

theorem Bounded.update (h : c.Bounded) {p : Pattern n} {data : DictionaryEntry} (hup : c.update d p data = .ok d') :
    d'.entries.length = d.entries.length := by
  unfold Compressor.update at hup
  split at hup
  · exact h.addToDictionary d data d' hup
  · cases hup
    rfl

theorem Bounded.compressValues (h : c.Bounded) (values : List (Value n)) {cd cd' : CompData n}
    (hd : d.entries.length = c.dictionarySize) (hcd : ∀ p ∈ cd.entries, c.InRange p)
    (hcomp : c.compressValues d cd values = .ok (cd', d')) : ∀ p ∈ cd'.entries, c.InRange p := by
  induction values generalizing d cd with
  | nil =>
    cases hcomp
    exact hcd
  | cons v values ih =>
    rw [Compressor.compressValues] at hcomp
    obtain ⟨⟨p, d₁⟩, hval, hrest⟩ := Run.bind_eq_ok.1 hcomp
    obtain ⟨rfl, hup⟩ := compressValue_eq_ok.1 hval
    obtain ⟨q, hentries, hloc, -⟩ := h.addEntry cd (c.choose d (toDictionaryEntry v))
    refine ih ((h.update hup).trans hd) (fun p hp => ?_) hrest
    rw [hentries] at hp
    rcases List.mem_append.1 hp with hp | hp
    · exact hcd p hp
    · rw [List.mem_singleton.1 hp, InRange, hloc]
      exact h.choose hd _

theorem Bounded.compress (h : c.Bounded) {blkSize sizeThreshold : Nat} {line : List (BitVec 64)} {cd : CompData n}
    (hcomp : c.compress blkSize sizeThreshold line = .ok cd) : ∀ p ∈ cd.entries, c.InRange p := by
  obtain ⟨d, hreset, hcomp⟩ := Run.bind_eq_ok.1 hcomp
  obtain ⟨⟨cd', d'⟩, hvalues, hcd⟩ := Run.bind_eq_ok.1 hcomp
  have hd : d.entries.length = c.dictionarySize := by
    unfold resetDictionary at hreset
    dsimp only at hreset
    split at hreset
    · rw [h.addToDictionary _ _ _ hreset, List.length_replicate]
    · cases hreset
      exact List.length_replicate
  have hentries : cd.entries = cd'.entries := by
    cases hcd
    rw [apply_ite CompData.entries, ite_self, h.finish]
  rw [hentries]
  exact h.compressValues _ hd (fun p hp => absurd hp List.not_mem_nil) hvalues

theorem InRange.getMatchLocation_lt_iff {p : Pattern n} (h : c.InRange p) (hsize : c.dictionarySize ≤ 255) :
    p.getMatchLocation < c.dictionarySize ↔ 0 ≤ p.matchLocation := by
  rw [Pattern.getMatchLocation]
  rcases h with h | ⟨i, hi, h⟩
  · rw [h]
    omega
  · rw [h]
    omega

end Compressor

/-! ## The compressors -/

theorem appendToDictionary_length {d d' : Dictionary} {data : DictionaryEntry} (h : appendToDictionary d data = .ok d') :
    d'.entries.length = d.entries.length := by
  unfold appendToDictionary at h
  split at h
  · cases h
    exact List.length_set
  · cases h

theorem cpack_bounded (blkSize : Nat) : (cpack blkSize).Bounded where
  factory := by
    unfold cpack
    simp only [List.mem_cons, List.not_mem_nil, or_false, forall_eq_or_imp, forall_eq]
    exact ⟨fun _ _ => .inl rfl, fun _ _ => .inl rfl, fun _ _ => .inl rfl, fun _ _ => .inl rfl, fun _ _ => .inl rfl⟩
  last _ _ := .inl rfl
  addToDictionary _ _ _ h := appendToDictionary_length h
  addEntry := addEntry_entries
  finish _ _ := rfl

theorem fpc_bounded (zeroRunBits : Nat) : (fpc zeroRunBits).Bounded where
  factory := by
    unfold fpc
    simp only [List.mem_cons, List.not_mem_nil, or_false, forall_eq_or_imp, forall_eq]
    exact ⟨fun _ _ => .inr rfl, fun _ _ => .inr rfl, fun _ _ => .inr rfl, fun _ _ => .inr rfl, fun _ _ => .inr rfl,
      fun _ _ => .inr rfl, fun _ _ => .inr rfl⟩
  last _ _ := .inr rfl
  addToDictionary _ _ _ h := by
    cases h
    rfl
  addEntry := FPC.addEntry_entries zeroRunBits
  finish _ _ := rfl

theorem fpcd_bounded : fpcd.Bounded where
  factory := by
    unfold fpcd
    simp only [List.mem_cons, List.not_mem_nil, or_false, forall_eq_or_imp, forall_eq]
    refine ⟨?_, ?_, ?_, ?_, ?_, ?_, ?_, ?_, ?_, ?_, ?_, ?_, ?_, ?_, ?_⟩ <;> exact fun _ _ => .inl rfl
  last _ _ := .inl rfl
  addToDictionary d data d' h := by
    replace h : FPCD.addToDictionary d data = .ok d' := h
    unfold FPCD.addToDictionary at h
    split at h
    · cases h
      simp only [Dictionary.set, List.length_set]
    · split at h
      · cases h
        exact List.length_set
      · cases h
  addEntry := addEntry_entries
  finish _ _ := rfl

theorem baseDelta_bounded (n deltaSizeBits blkSize : Nat) : (baseDelta n deltaSizeBits blkSize).Bounded where
  factory := List.forall_mem_singleton.2 fun _ _ => .inl rfl
  last _ _ := .inl rfl
  addToDictionary _ _ _ h := appendToDictionary_length h
  addEntry := addEntry_entries
  finish d cd := BaseDelta.finish_entries blkSize d cd

theorem Scheme.bounded (s : Scheme) (blkSize : Nat) : (s.compressor blkSize).Bounded := by
  cases s with
  | cpack => exact cpack_bounded blkSize
  | fpc zeroRunBits => exact fpc_bounded zeroRunBits
  | fpcd => exact fpcd_bounded
  | _ => exact baseDelta_bounded _ _ blkSize

theorem Scheme.dictionarySize_le (s : Scheme) : (s.compressor 64).dictionarySize ≤ 255 := by
  cases s with
  | fpc zeroRunBits => exact Nat.le_of_ble_eq_true rfl
  | _ => decide

end Compression
end Gem5
