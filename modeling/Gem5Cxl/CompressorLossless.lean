import Gem5Cxl.CompressorSchemes
import Gem5Cxl.CompressorSound
/-!
# CompressorLossless — every line is restored, except where CPack passes 256 entries

Each compressor keeps an invariant on its dictionary from which its patterns are found again.  CPack adds an entry for
every value that is not nearly zero, so a line of more than 256 values can match at location 256, which is read again as 0.
-/
namespace Gem5
namespace Compression

open PatternClass

/-! ## Lines -/
namespace Compressor

variable {n : Nat} {c : Compressor n} {d : Dictionary} {junk : DictionaryEntry} {blkSize : Nat} {data : List (BitVec 64)}

def roundTrip (c : Compressor n) (junk : DictionaryEntry) (blkSize sizeThreshold : Nat) (data : List (BitVec 64)) :
    Except Failure (List (BitVec 64)) :=
  c.compress blkSize sizeThreshold data >>= c.decompress junk blkSize

theorem roundTrip_eq (hfinish : ∀ d cd, (c.finish d cd).entries = cd.entries) (hreset : c.resetDictionary = .ok d)
    (sizeThreshold : Nat) : c.roundTrip junk blkSize sizeThreshold data =
      (c.compressValues d {} (lineValues n blkSize data) >>= fun r => c.decompressValues junk d r.1.entries) >>=
        fun r => .ok (concatenate blkSize r.1) := by
  unfold roundTrip compress
  rw [hreset, Run.ok_bind]
  cases hc : c.compressValues d {} (lineValues n blkSize data) with
  | error e =>
    rw [lineValues] at hc
    rw [hc]
    rfl
  | ok r =>
    rw [lineValues] at hc
    rw [hc]
    simp only [Run.ok_bind, decompress, hreset]
    rw [apply_ite CompData.entries, ite_self, hfinish]

theorem Keeps.roundTrip {I : Nat → Dictionary → Prop} (h : c.Keeps junk (lineValues n blkSize data) I)
    (hfinish : ∀ d cd, (c.finish d cd).entries = cd.entries) (hreset : c.resetDictionary = .ok d) (hI : I 0 d)
    (hsize : ChunkSize n) (hblk : 8 ∣ blkSize) (hdata : data.length = blkSize / 8) (sizeThreshold : Nat) :
    c.roundTrip junk blkSize sizeThreshold data = .ok data := by
  obtain ⟨cd, d', ps, hcomp, hentries, -, hdec⟩ := Keeps.values _ I d {} h hI
  rw [List.nil_append] at hentries
  rw [roundTrip_eq hfinish hreset, hcomp]
  simp only [Run.ok_bind, hentries, hdec, concatenate_lineValues hsize hblk hdata]

end Compressor

/-! ## The classes of FPC -/
namespace FPC

theorem zeroRun_independent : zeroRun.Independent := fun v dict location hp e =>
  maskedValue_independent 0 0xFFFFFFFF 0 0 3 nowhere false v dict location hp e

theorem extendByte_of_isExtendedByte {half : BitVec 16} (h : isExtendedByte half = true) :
    extendByte (half.setWidth 8) = half := by
  have hbit : ∀ j < 8, ((half.setWidth 8).signExtend 64).getLsbD j = (half.signExtend 64).getLsbD j := by
    intro j hj
    rw [BitVec.getLsbD_signExtend, BitVec.getLsbD_signExtend, BitVec.getLsbD_setWidth, if_pos hj, if_pos (by omega),
      decide_eq_true hj, Bool.true_and]
  have hlow : szext 8 ((half.setWidth 8).signExtend 64) = szext 8 (half.signExtend 64) := by
    refine BitVec.eq_of_getLsbD_eq fun i hi => ?_
    rw [getLsbD_szext (by decide) _ hi, getLsbD_szext (by decide) _ hi]
    by_cases hi8 : i < 8
    · rw [if_pos hi8, if_pos hi8, hbit i hi8]
    · rw [if_neg hi8, if_neg hi8, hbit 7 (by decide)]
  have hint := of_decide_eq_true h
  rw [extendByte, hlow]
  refine BitVec.eq_of_toNat_eq ?_
  rw [BitVec.toInt_eq_toNat_cond] at hint
  split at hint <;> omega

theorem signExtendedTwoHalfwords_independent : signExtendedTwoHalfwords.Independent := by
  intro v dict location hp e
  have hp' : (isExtendedByte ((fromDictionaryEntry (toDictionaryEntry v) : Value 4).setWidth 16) &&
    isExtendedByte (((fromDictionaryEntry (toDictionaryEntry v) : Value 4) >>> 16).setWidth 16)) = true := hp
  change toDictionaryEntry
    ((extendByte (((fromDictionaryEntry (toDictionaryEntry v) : Value 4) >>> 16).setWidth 8)).setWidth (8 * 4) <<< 16 |||
      (extendByte ((fromDictionaryEntry (toDictionaryEntry v) : Value 4).setWidth 8)).setWidth (8 * 4)) = _
  rw [fromDictionaryEntry_toDictionaryEntry] at hp' ⊢
  obtain ⟨hlow, hhigh⟩ := Bool.and_eq_true_iff.1 hp'
  have h8 : ∀ x : Value 4, x.setWidth 8 = (x.setWidth 16).setWidth 8 := fun x =>
    (BitVec.setWidth_setWidth_of_le x (by decide)).symm
  have htop : ((v >>> 16).setWidth 16).setWidth (8 * 4) = v >>> 16 := by
    refine BitVec.eq_of_toNat_eq ?_
    have := v.isLt
    rw [BitVec.toNat_setWidth, BitVec.toNat_setWidth, BitVec.toNat_ushiftRight, Nat.shiftRight_eq_div_pow]
    omega
  rw [h8, h8 v, extendByte_of_isExtendedByte hlow, extendByte_of_isExtendedByte hhigh, htop, Limbs.shift_or_low]

theorem addEntry_entries (zeroRunSizeBits : Nat) (cd : CompData 4) (p : Pattern 4) :
    ∃ q, (addEntry zeroRunSizeBits cd p).entries = cd.entries ++ [q] ∧ Compressor.SameValue q p := by
  unfold addEntry
  split
  · split
    · exact ⟨_, rfl, rfl, rfl, rfl⟩
    · simp only
      split
      · exact ⟨_, rfl, rfl, rfl, rfl⟩
      · split
        · exact ⟨_, rfl, rfl, rfl, rfl⟩
        · exact ⟨_, rfl, rfl, rfl, rfl⟩
  · exact ⟨_, rfl, rfl, rfl, rfl⟩

end FPC

/-! ## The dictionaries -/

section Dictionaries

variable {d : Dictionary} {blkSize : Nat}

theorem appendToDictionary_spec (data : DictionaryEntry) (h : d.numEntries < d.entries.length) :
    ∃ d', appendToDictionary d data = .ok d' ∧ d'.numEntries = d.numEntries + 1 ∧
      d'.entries = d.entries.set d.numEntries data := by
  rw [appendToDictionary, dif_pos h]
  exact ⟨_, rfl, rfl, rfl⟩

def AtMost (blkSize k : Nat) (d : Dictionary) : Prop := d.numEntries ≤ k ∧ d.entries.length = blkSize

theorem AtMost.update {n k : Nat} {c : Compressor n} (hadd : c.addToDictionary = appendToDictionary)
    (h : AtMost blkSize k d) (hk : k < blkSize) (p : Pattern n) (data : DictionaryEntry) :
    ∃ d', c.update d p data = .ok d' ∧ AtMost blkSize (k + 1) d' := by
  unfold Compressor.update
  split
  · obtain ⟨d', hd', hnum, hentries⟩ := appendToDictionary_spec data (show d.numEntries < d.entries.length by
      have := h.1
      rw [h.2]
      omega)
    refine ⟨d', by rw [hadd, hd'], ?_, ?_⟩
    · have := h.1
      omega
    · rw [hentries, List.length_set, h.2]
  · exact ⟨d, rfl, Nat.le_succ_of_le h.1, h.2⟩

theorem FPCD.addToDictionary_spec (data : DictionaryEntry) (h : d.entries.length = 2) :
    ∃ d', FPCD.addToDictionary d data = .ok d' ∧ d'.entries.length = 2 := by
  unfold FPCD.addToDictionary
  split
  · refine ⟨_, rfl, ?_⟩
    simp only [Dictionary.set, List.length_set, h]
  · have := d.le
    rw [dif_pos (by omega)]
    refine ⟨_, rfl, ?_⟩
    rw [Dictionary.set, List.length_set, h]

end Dictionaries

/-! ## The compressors -/

section Compressors

variable {blkSize : Nat}

theorem cpack_sound (blkSize : Nat) : (cpack blkSize).Sound where
  factory := by
    unfold cpack
    simp only [List.mem_cons, List.not_mem_nil, or_false, forall_eq_or_imp, forall_eq]
    refine ⟨(maskedValue_independent _ _ _ _ _ _ _).sound, masked_sound _ _ _ _ _,
      (maskedValue_independent _ _ _ _ _ _ _).sound, masked_sound _ _ _ _ _, masked_sound _ _ _ _ _⟩
  last _ _ _ := rfl

theorem fpcd_sound : fpcd.Sound where
  factory := by
    unfold fpcd
    simp only [List.mem_cons, List.not_mem_nil, or_false, forall_eq_or_imp, forall_eq]
    refine ⟨(maskedValue_independent _ _ _ _ _ _ _).sound, (maskedValue_independent _ _ _ _ _ _ _).sound,
      locatedMasked_sound _ _ _ _ _, locatedMasked_sound _ _ _ _ _, (maskedValue_independent _ _ _ _ _ _ _).sound,
      (maskedValue_independent _ _ _ _ _ _ _).sound, (repeatedValue_independent (by decide) _ _ _ _ _).sound,
      locatedMasked_sound _ _ _ _ _, locatedMasked_sound _ _ _ _ _, (maskedValue_independent _ _ _ _ _ _ _).sound,
      (maskedValue_independent _ _ _ _ _ _ _).sound, (maskedValue_independent _ _ _ _ _ _ _).sound,
      (maskedValue_independent _ _ _ _ _ _ _).sound, locatedMasked_sound _ _ _ _ _, locatedMasked_sound _ _ _ _ _⟩
  last _ _ _ := rfl

theorem fpc_independent (zeroRunBits : Nat) : ∀ cls ∈ (fpc zeroRunBits).factory, cls.Independent := by
  unfold fpc
  simp only [List.mem_cons, List.not_mem_nil, or_false, forall_eq_or_imp, forall_eq]
  refine ⟨FPC.zeroRun_independent, signExtended_independent (by decide) (by decide) _ _ _,
    signExtended_independent (by decide) (by decide) _ _ _, signExtended_independent (by decide) (by decide) _ _ _,
    maskedValue_independent _ _ _ _ _ _ _, FPC.signExtendedTwoHalfwords_independent,
    repeatedValue_independent (by decide) _ _ _ _ _⟩

theorem addEntry_entries {n : Nat} (cd : CompData n) (p : Pattern n) :
    ∃ q, (cd.addEntry p).entries = cd.entries ++ [q] ∧ Compressor.SameValue q p :=
  ⟨p, rfl, rfl, rfl, rfl⟩

theorem cpack_keeps (junk : DictionaryEntry) {values : List (Value 4)} (hlen : values.length ≤ 256)
    (hblk : values.length ≤ blkSize) : (cpack blkSize).Keeps junk values (AtMost blkSize) where
  step k v hv d hI := by
    have hk := (List.getElem?_eq_some_iff.1 hv).1
    obtain ⟨d', hd', hI'⟩ := hI.update (c := cpack blkSize) rfl (by omega)
      ((cpack blkSize).choose d (toDictionaryEntry v)) (toDictionaryEntry v)
    have := hI.1
    exact ⟨d', hd', hI', ((cpack_sound blkSize).choose d v).found junk (by omega)⟩
  addEntry := addEntry_entries

theorem fpcd_keeps (junk : DictionaryEntry) (values : List (Value 4)) :
    fpcd.Keeps junk values fun _ d => d.entries.length = 2 where
  step k v hv d hI := by
    have hle := d.le
    have hfound := (fpcd_sound.choose d v).found junk (by omega)
    obtain ⟨d', hd', hI'⟩ := FPCD.addToDictionary_spec (toDictionaryEntry v) hI
    unfold Compressor.update
    split
    · exact ⟨d', hd', hI', hfound⟩
    · exact ⟨d, rfl, hI, hfound⟩
  addEntry := addEntry_entries

theorem fpc_keeps (junk : DictionaryEntry) (zeroRunBits : Nat) (values : List (Value 4)) :
    (fpc zeroRunBits).Keeps junk values fun _ _ => True where
  step k v hv d _ := by
    refine ⟨d, ?_, trivial, Compressor.choose_independent (fpc_independent zeroRunBits) (fun _ _ _ => rfl) d v _⟩
    unfold Compressor.update
    split
    · rfl
    · rfl
  addEntry := FPC.addEntry_entries zeroRunBits

theorem BaseDelta.finish_entries {n : Nat} (blkSize : Nat) (d : Dictionary) (cd : CompData n) :
    (BaseDelta.finish blkSize d cd).entries = cd.entries := by
  unfold BaseDelta.finish
  split
  · rfl
  · rfl

theorem baseDelta_keeps (n deltaSizeBits : Nat) (junk : DictionaryEntry) {values : List (Value n)}
    (hblk : values.length < blkSize) :
    (baseDelta n deltaSizeBits blkSize).Keeps junk values fun k => AtMost blkSize (k + 1) where
  step k v hv d hI := by
    have hk := (List.getElem?_eq_some_iff.1 hv).1
    obtain ⟨d', hd', hI'⟩ := hI.update (c := baseDelta n deltaSizeBits blkSize) rfl (by omega)
      ((baseDelta n deltaSizeBits blkSize).choose d (toDictionaryEntry v)) (toDictionaryEntry v)
    refine ⟨d', hd', hI', Compressor.choose_independent ?_ (fun _ _ _ => rfl) d v _⟩
    exact List.forall_mem_singleton.2 (delta_independent _ _ _ _)
  addEntry := addEntry_entries

end Compressors

/-! ## Lines that are restored -/

section Restored

variable {blkSize sizeThreshold : Nat} {line : List (BitVec 64)} {junk : DictionaryEntry}

def emptyDictionary (n dictionarySize : Nat) : Dictionary :=
  ⟨List.replicate dictionarySize (toDictionaryEntry (0 : Value n)), 0, Nat.zero_le _⟩

theorem cpack_resetDictionary (blkSize : Nat) : (cpack blkSize).resetDictionary = .ok (emptyDictionary 4 blkSize) := rfl

theorem cpack_roundTrip (hblk : 8 ∣ blkSize) (hline : line.length = blkSize / 8) (hle : blkSize ≤ 1024) :
    (cpack blkSize).roundTrip junk blkSize sizeThreshold line = .ok line := by
  have hsize : ChunkSize 4 := ⟨by decide, by decide⟩
  have hlen := length_lineValues line hsize hblk
  have hkeeps : (cpack blkSize).Keeps junk (lineValues 4 blkSize line) (AtMost blkSize) :=
    cpack_keeps junk (by omega) (by omega)
  exact hkeeps.roundTrip (fun _ _ => rfl) (cpack_resetDictionary blkSize) ⟨Nat.le_refl 0, List.length_replicate⟩ hsize
    hblk hline sizeThreshold

theorem fpc_roundTrip (zeroRunBits : Nat) (hblk : 8 ∣ blkSize) (hline : line.length = blkSize / 8) :
    (fpc zeroRunBits).roundTrip junk blkSize sizeThreshold line = .ok line :=
  (fpc_keeps junk zeroRunBits _).roundTrip (d := emptyDictionary 4 1) (fun _ _ => rfl) rfl trivial ⟨by decide, by decide⟩
    hblk hline sizeThreshold

theorem fpcd_roundTrip (hblk : 8 ∣ blkSize) (hline : line.length = blkSize / 8) :
    fpcd.roundTrip junk blkSize sizeThreshold line = .ok line :=
  (fpcd_keeps junk _).roundTrip (d := emptyDictionary 4 2) (fun _ _ => rfl) rfl rfl ⟨by decide, by decide⟩ hblk hline
    sizeThreshold

theorem baseDelta_roundTrip {n : Nat} (deltaSizeBits : Nat) (hsize : ChunkSize n) (hn : 2 ≤ n) (hpos : 0 < blkSize)
    (hblk : 8 ∣ blkSize) (hline : line.length = blkSize / 8) :
    (baseDelta n deltaSizeBits blkSize).roundTrip junk blkSize sizeThreshold line = .ok line := by
  have hlen : (lineValues n blkSize line).length < blkSize := by
    have hle : 8 / n * (blkSize / 8) ≤ 4 * (blkSize / 8) := Nat.mul_le_mul_right _ (Nat.div_le_div_left hn (by decide))
    rw [length_lineValues line hsize hblk]
    omega
  obtain ⟨d, hd, hnum, hentries⟩ := appendToDictionary_spec (d := emptyDictionary n blkSize)
    (toDictionaryEntry (0 : Value n)) (by rw [emptyDictionary, List.length_replicate]; exact hpos)
  have hreset : (baseDelta n deltaSizeBits blkSize).resetDictionary = .ok d := hd
  refine (baseDelta_keeps n deltaSizeBits junk hlen).roundTrip (BaseDelta.finish_entries blkSize) hreset
    ⟨Nat.le_of_eq hnum, ?_⟩ hsize hblk hline sizeThreshold
  rw [hentries, List.length_set, emptyDictionary, List.length_replicate]

theorem Scheme.roundTrip_eq_ok (s : Scheme) (hpos : 0 < blkSize) (hblk : 8 ∣ blkSize)
    (hs : ¬(s = .cpack ∧ 1024 < blkSize)) (hline : line.length = blkSize / 8) :
    (s.compressor blkSize).roundTrip junk blkSize sizeThreshold line = .ok line := by
  have h8 : ChunkSize 8 := ⟨by decide, by decide⟩
  have h4 : ChunkSize 4 := ⟨by decide, by decide⟩
  cases s with
  | cpack => exact cpack_roundTrip hblk hline (Nat.le_of_not_lt fun h => hs ⟨rfl, h⟩)
  | fpc zeroRunBits => exact fpc_roundTrip zeroRunBits hblk hline
  | fpcd => exact fpcd_roundTrip hblk hline
  | base64Delta8 => exact baseDelta_roundTrip 8 h8 (by decide) hpos hblk hline
  | base64Delta16 => exact baseDelta_roundTrip 16 h8 (by decide) hpos hblk hline
  | base64Delta32 => exact baseDelta_roundTrip 32 h8 (by decide) hpos hblk hline
  | base32Delta8 => exact baseDelta_roundTrip 8 h4 (by decide) hpos hblk hline
  | base32Delta16 => exact baseDelta_roundTrip 16 h4 (by decide) hpos hblk hline
  | base16Delta8 => exact baseDelta_roundTrip 8 ⟨by decide, by decide⟩ (by decide) hpos hblk hline

end Restored

/-! ## CPack past 256 entries -/
namespace Compressor

variable {n : Nat} {c : Compressor n} {junk : DictionaryEntry}

theorem compressValues_append : ∀ (xs ys : List (Value n)) (d : Dictionary) (cd : CompData n),
    c.compressValues d cd (xs ++ ys) = c.compressValues d cd xs >>= fun r => c.compressValues r.2 r.1 ys
  | [], _, _, _ => rfl
  | x :: xs, ys, d, cd => by
    rw [List.cons_append, compressValues, compressValues]
    cases hx : c.compressValue d x with
    | error e => rfl
    | ok r => exact compressValues_append xs ys r.2 (c.addEntry cd r.1)

theorem decompressValues_append : ∀ (ps qs : List (Pattern n)) (d : Dictionary),
    c.decompressValues junk d (ps ++ qs) = c.decompressValues junk d ps >>= fun r =>
      c.decompressValues junk r.2 qs >>= fun r' => .ok (r.1 ++ r'.1, r'.2)
  | [], qs, d => by
    rw [List.nil_append, decompressValues, Run.ok_bind]
    cases c.decompressValues junk d qs with
    | error e => rfl
    | ok r => rfl
  | p :: ps, qs, d => by
    rw [List.cons_append, decompressValues, decompressValues]
    cases c.decompressValue junk d p with
    | error e => rfl
    | ok r =>
      simp only [Run.ok_bind, decompressValues_append ps qs r.2]
      cases c.decompressValues junk r.2 ps with
      | error e => rfl
      | ok r' =>
        simp only [Run.ok_bind]
        cases c.decompressValues junk r'.2 qs with
        | error e => rfl
        | ok r'' => rfl

theorem foldl_better_eq {d : Dictionary} {bytes : DictionaryEntry} {p : Pattern n} {k : Nat}
    (h : ∀ i < k, p.getSizeBits ≤ (c.getPattern bytes (d.entries.getD i []) i).getSizeBits) :
    (List.range k).foldl (c.better d bytes) p = p := by
  refine List.foldlRecOn (motive := fun q => q = p) _ _ rfl fun q hq i hi => ?_
  rw [better_eq, hq, if_neg (Nat.not_lt.2 (h i (List.mem_range.1 hi)))]

end Compressor

namespace CPack

variable {blkSize : Nat} {v : Value 4} {junk : DictionaryEntry}

theorem and_eq_of_subset {x y m m' : Value 4} (hsub : m &&& m' = m') (h : x &&& m = y &&& m) : x &&& m' = y &&& m' := by
  rw [← hsub, ← BitVec.and_assoc, h, BitVec.and_assoc]

section

variable (blkSize : Nat) (hv : v &&& 0xFFFFFF00 ≠ 0)
include hv

theorem getPattern_allocate (dict : DictionaryEntry) (location : Int) :
    ((cpack blkSize).getPattern (toDictionaryEntry v) dict location).allocate = true := by
  rcases (cpack blkSize).getPattern_mem (toDictionaryEntry v) dict location with ⟨cls, hcls, hp, heq⟩ | heq
  · rw [heq]
    simp only [cpack, List.mem_cons, List.not_mem_nil, or_false] at hcls
    rcases hcls with rfl | rfl | rfl | rfl | rfl
    · have hz := of_decide_eq_true hp
      rw [fromDictionaryEntry_toDictionaryEntry] at hz
      exact hv.elim (and_eq_of_subset (by decide) hz.symm)
    · rfl
    · have hz := of_decide_eq_true hp
      rw [fromDictionaryEntry_toDictionaryEntry] at hz
      exact absurd hz.symm hv
    · rfl
    · rfl
  · rw [heq]
    rfl

theorem choose_allocate (d : Dictionary) :
    ((cpack blkSize).choose d (toDictionaryEntry v)).allocate = true := by
  rcases (cpack blkSize).choose_mem d (toDictionaryEntry v) with heq | ⟨i, -, heq⟩
  · rw [heq, getPattern_allocate blkSize hv]
  · rw [heq, getPattern_allocate blkSize hv]

theorem getPattern_eq_XXXX (dict : DictionaryEntry) (location : Int)
    (h : location < 0 ∨ v &&& 0xFFFF0000 ≠ fromDictionaryEntry dict &&& 0xFFFF0000) :
    (cpack blkSize).getPattern (toDictionaryEntry v) dict location = patternXXXX.make (toDictionaryEntry v) location := by
  -- a masked pattern needs a location, and the upper half under its mask
  have hmasked : ∀ mask : Value 4, mask &&& 0xFFFF0000 = 0xFFFF0000 →
      ¬matchesMasked mask (toDictionaryEntry v) dict location = true := by
    intro mask hsub hm
    obtain ⟨hloc, hm⟩ := Bool.and_eq_true_iff.1 hm
    rw [decide_eq_true_eq, fromDictionaryEntry_toDictionaryEntry] at hm
    rcases h with hneg | hne
    · exact absurd (of_decide_eq_true hloc) (by omega)
    · exact hne (and_eq_of_subset hsub hm)
  have hzero : ∀ mask : Value 4, mask &&& 0xFFFFFF00 = 0xFFFFFF00 →
      ¬decide (0 &&& mask = fromDictionaryEntry (toDictionaryEntry v) &&& mask) = true := by
    intro mask hsub hz
    rw [decide_eq_true_eq, fromDictionaryEntry_toDictionaryEntry] at hz
    exact hv (and_eq_of_subset hsub hz.symm)
  have hnone : ((cpack blkSize).factory.find? fun cls => cls.isPattern (toDictionaryEntry v) dict location) = none := by
    rw [List.find?_eq_none]
    simp only [cpack, List.mem_cons, List.not_mem_nil, or_false, forall_eq_or_imp, forall_eq]
    exact ⟨hzero _ (by decide), hmasked _ (by decide), hzero _ (by decide), hmasked _ (by decide), hmasked _ (by decide)⟩
  unfold Compressor.getPattern
  rw [hnone]
  rfl

theorem getPattern_eq_MMMM (k : Nat) :
    (cpack blkSize).getPattern (toDictionaryEntry v) (toDictionaryEntry v) k =
      patternMMMM.make (toDictionaryEntry v) k := by
  have hz : patternZZZZ.isPattern (toDictionaryEntry v) (toDictionaryEntry v) k = false := by
    refine decide_eq_false fun hz => hv ?_
    rw [fromDictionaryEntry_toDictionaryEntry] at hz
    exact and_eq_of_subset (by decide) hz.symm
  have hm : patternMMMM.isPattern (toDictionaryEntry v) (toDictionaryEntry v) k = true :=
    Bool.and_eq_true_iff.2 ⟨decide_eq_true (Int.natCast_nonneg k), decide_eq_true rfl⟩
  unfold Compressor.getPattern cpack
  rw [List.find?_cons, hz, List.find?_cons, hm]

end

def zeroPattern (location : Int) : Pattern 4 := patternZZZZ.make (toDictionaryEntry (0 : Value 4)) location

theorem isPattern_zero (dict : DictionaryEntry) (location : Int) :
    patternZZZZ.isPattern (toDictionaryEntry (0 : Value 4)) dict location = true := by
  change decide ((0 : Value 4) &&& 0xFFFFFFFF = fromDictionaryEntry (toDictionaryEntry (0 : Value 4)) &&& 0xFFFFFFFF) =
    true
  rw [fromDictionaryEntry_toDictionaryEntry]
  rfl

theorem getPattern_zero (blkSize : Nat) (dict : DictionaryEntry) (location : Int) :
    (cpack blkSize).getPattern (toDictionaryEntry (0 : Value 4)) dict location = zeroPattern location := by
  unfold Compressor.getPattern cpack
  rw [List.find?_cons, isPattern_zero]
  rfl

theorem choose_zero (blkSize : Nat) (d : Dictionary) :
    (cpack blkSize).choose d (toDictionaryEntry (0 : Value 4)) = zeroPattern (-1) := by
  unfold Compressor.choose
  rw [getPattern_zero, Compressor.foldl_better_eq fun i _ => ?_]
  rw [getPattern_zero]
  exact Nat.le_refl _

theorem decompress_zeroPattern (e : DictionaryEntry) :
    (zeroPattern (-1)).decompress e = toDictionaryEntry (0 : Value 4) :=
  maskedValue_independent 0 0xFFFFFFFF 0 0 2 id false 0 e (-1) (isPattern_zero e (-1)) e

theorem zeros_restored (blkSize : Nat) (junk : DictionaryEntry) (m : Nat) : ∃ ps,
    (∀ d cd, ∃ cd', (cpack blkSize).compressValues d cd (List.replicate m 0) = .ok (cd', d) ∧
      cd'.entries = cd.entries ++ ps) ∧
      ∀ d, (cpack blkSize).decompressValues junk d ps = .ok (List.replicate m 0, d) := by
  induction m with
  | zero => exact ⟨[], fun d cd => ⟨cd, rfl, (List.append_nil _).symm⟩, fun d => rfl⟩
  | succ m ih =>
    obtain ⟨ps, hcomp, hdec⟩ := ih
    refine ⟨zeroPattern (-1) :: ps, fun d cd => ?_, fun d => ?_⟩
    · obtain ⟨cd', hcd', hentries⟩ := hcomp d (cd.addEntry (zeroPattern (-1)))
      have hval : (cpack blkSize).compressValue d 0 = .ok (zeroPattern (-1), d) :=
        Compressor.compressValue_eq_ok.2 ⟨(choose_zero blkSize d).symm, rfl⟩
      refine ⟨cd', ?_, ?_⟩
      · rw [List.replicate_succ, Compressor.compressValues_cons _ hval]
        exact hcd'
      · rw [hentries, CompData.addEntry, List.append_assoc, List.singleton_append]
    · exact Compressor.decompressValues_cons (Compressor.decompressValue_of_found (decompress_zeroPattern _) rfl) (hdec d)

/-! ### A line with a match at location 256 -/

def marker (i : Nat) : Value 4 := BitVec.ofNat 32 ((i + 1) * 2 ^ 16)

theorem marker_and {mask : Value 4} (hm : mask &&& 0xFFFF0000 = 0xFFFF0000) (i : Nat) : marker i &&& mask = marker i := by
  have hhigh : marker i &&& 0xFFFF0000 = marker i := by
    refine BitVec.eq_of_getLsbD_eq fun k hk => ?_
    have hbits : ∀ k < 32, 16 ≤ k → (0xFFFF0000 : Value 4).getLsbD k = true := by decide
    rw [BitVec.getLsbD_and, marker, BitVec.getLsbD_ofNat, Nat.testBit_mul_two_pow]
    by_cases h16 : 16 ≤ k
    · rw [hbits k hk h16, Bool.and_true]
    · simp [h16]
  calc marker i &&& mask = marker i &&& 0xFFFF0000 &&& mask := by rw [hhigh]
    _ = marker i &&& (mask &&& 0xFFFF0000) := by rw [BitVec.and_assoc, BitVec.and_comm mask]
    _ = marker i := by rw [hm, hhigh]

theorem toNat_marker {i : Nat} (hi : i ≤ 256) : (marker i).toNat = (i + 1) * 65536 := by
  rw [marker, BitVec.toNat_ofNat]
  omega

theorem marker_ne {i j : Nat} (hi : i ≤ 256) (hj : j ≤ 256) (h : i ≠ j) : marker i ≠ marker j := by
  intro heq
  have := congrArg BitVec.toNat heq
  rw [toNat_marker hi, toNat_marker hj] at this
  omega

theorem marker_high {i : Nat} (hi : i ≤ 256) : marker i &&& 0xFFFFFF00 ≠ 0 := by
  rw [marker_and (by decide)]
  intro h
  have hnat := toNat_marker hi
  rw [h] at hnat
  change 0 = (i + 1) * 65536 at hnat
  omega

structure Filled (blkSize k : Nat) (d : Dictionary) : Prop where
  numEntries : d.numEntries = k
  length : d.entries.length = blkSize
  entries : ∀ i < k, d.entries.getD i [] = toDictionaryEntry (marker i)

theorem Filled.update {d : Dictionary} {k : Nat} (h : Filled blkSize k d) (hk : k < blkSize) (p : Pattern 4)
    (hp : p.allocate = true) (v : Value 4) : ∃ d', (cpack blkSize).update d p (toDictionaryEntry v) = .ok d' ∧
      (v = marker k → Filled blkSize (k + 1) d') := by
  obtain ⟨d', hd', hnum, hentries⟩ := appendToDictionary_spec (toDictionaryEntry v) (show d.numEntries < d.entries.length by
    rw [h.numEntries, h.length]
    exact hk)
  refine ⟨d', ?_, ?_⟩
  · rw [Compressor.update, if_pos hp]
    exact hd'
  · rintro rfl
    refine ⟨by rw [hnum, h.numEntries], by rw [hentries, List.length_set, h.length], fun i hi => ?_⟩
    rw [hentries, h.numEntries, List.getD_eq_getElem?_getD, List.getElem?_set]
    by_cases hik : k = i
    · subst hik
      rw [if_pos rfl, if_pos (h.length.symm ▸ hk)]
      rfl
    · rw [if_neg hik, ← List.getD_eq_getElem?_getD]
      exact h.entries i (by omega)

theorem markers_keep (junk : DictionaryEntry) (hblk : 1024 < blkSize) :
    (cpack blkSize).Keeps junk ((List.range 257).map marker) (Filled blkSize) where
  step k v hv d hI := by
    rw [List.getElem?_map] at hv
    obtain ⟨i, hi, rfl⟩ := Option.map_eq_some_iff.1 hv
    obtain ⟨hk, rfl⟩ := List.getElem?_eq_some_iff.1 hi
    rw [List.length_range] at hk
    rw [List.getElem_range]
    have halloc := choose_allocate blkSize (marker_high (i := k) (by omega)) d
    obtain ⟨d', hd', hfilled⟩ := hI.update (by omega) _ halloc (marker k)
    refine ⟨d', hd', hfilled rfl, ((cpack_sound blkSize).choose d (marker k)).found junk ?_⟩
    rw [hI.numEntries]
    omega
  addEntry := addEntry_entries

theorem Filled.choose {d : Dictionary} (h : Filled blkSize 257 d) :
    (cpack blkSize).choose d (toDictionaryEntry (marker 256)) = patternMMMM.make (toDictionaryEntry (marker 256)) 256 := by
  have hv := marker_high (Nat.le_refl 256)
  have hfirst := getPattern_eq_XXXX blkSize hv (toDictionaryEntry (0 : Value 4)) (-1) (.inl (by decide))
  have hlast := getPattern_eq_MMMM blkSize hv 256
  unfold Compressor.choose
  rw [h.numEntries, List.range_succ, List.foldl_append, Compressor.foldl_better_eq fun i hi => ?_]
  · rw [List.foldl_cons, List.foldl_nil, Compressor.better_eq, h.entries 256 (by decide), hlast, hfirst]
    rfl
  · rw [hfirst, h.entries i (by omega), getPattern_eq_XXXX blkSize hv _ _ (.inr ?_)]
    · rfl
    · rw [fromDictionaryEntry_toDictionaryEntry, marker_and (by decide), marker_and (by decide)]
      exact marker_ne (by decide) (by omega) (by omega)

theorem Filled.decompress {d : Dictionary} (h : Filled blkSize 257 d) (junk : DictionaryEntry) (hblk : 257 < blkSize) :
    ∃ d', (cpack blkSize).decompressValue junk d (patternMMMM.make (toDictionaryEntry (marker 256)) 256) =
      .ok (marker 0, d') := by
  have hfound : Compressor.Found junk d (marker 0) (patternMMMM.make (toDictionaryEntry (marker 256)) 256) := by
    have hentry : d.entries.getD 0 junk = toDictionaryEntry (marker 0) := by
      have hlen : 0 < d.entries.length := by
        rw [h.length]
        omega
      rw [List.getD_eq_getElem _ _ hlen, ← List.getD_eq_getElem _ [] hlen]
      exact h.entries 0 (by decide)
    change toDictionaryEntry (unmatched 0xFFFFFFFF (toDictionaryEntry (marker 256)) |||
      fromDictionaryEntry (d.entries.getD 0 junk) &&& (0xFFFFFFFF : Value 4)) = _
    rw [hentry, fromDictionaryEntry_toDictionaryEntry]
    rfl
  obtain ⟨d', hd', -⟩ := h.update hblk (patternMMMM.make (toDictionaryEntry (marker 256)) 256) rfl (marker 0)
  exact ⟨d', Compressor.decompressValue_of_found hfound hd'⟩

/-- The markers, one value more, and zeros up to `N` values. -/
def markersThen (v : Value 4) (N : Nat) : List (Value 4) := (List.range 257).map marker ++ v :: List.replicate (N - 258) 0

theorem markersThen_restored (junk : DictionaryEntry) (hblk : 1024 < blkSize) (N : Nat) : ∃ cd d,
    (cpack blkSize).compressValues (emptyDictionary 4 blkSize) {} (markersThen (marker 256) N) = .ok (cd, d) ∧
      ∃ d', (cpack blkSize).decompressValues junk (emptyDictionary 4 blkSize) cd.entries =
        .ok (markersThen (marker 0) N, d') := by
  have hempty : Filled blkSize 0 (emptyDictionary 4 blkSize) :=
    ⟨rfl, List.length_replicate, fun i hi => absurd hi (Nat.not_lt_zero i)⟩
  obtain ⟨cd, d, ps, hcomp, hentries, hfilled, hdec⟩ := Compressor.Keeps.values _ _ _ {} (markers_keep junk hblk) hempty
  rw [List.length_map, List.length_range] at hfilled
  obtain ⟨d₁, hd₁, -⟩ := hfilled.update (by omega) (patternMMMM.make (toDictionaryEntry (marker 256)) 256) rfl (marker 256)
  obtain ⟨d₂, hd₂⟩ := hfilled.decompress junk (by omega)
  obtain ⟨qs, hzcomp, hzdec⟩ := zeros_restored blkSize junk (N - 258)
  obtain ⟨cd', hcd', hentries'⟩ := hzcomp d₁ (cd.addEntry (patternMMMM.make (toDictionaryEntry (marker 256)) 256))
  refine ⟨cd', d₁, ?_, d₂, ?_⟩
  · have hval := Compressor.compressValue_eq_ok.2 ⟨hfilled.choose.symm, hd₁⟩
    rw [markersThen, Compressor.compressValues_append, hcomp, Run.ok_bind, Compressor.compressValues_cons _ hval]
    exact hcd'
  · rw [List.nil_append] at hentries
    rw [hentries', CompData.addEntry, hentries, List.append_assoc, List.singleton_append,
      Compressor.decompressValues_append, hdec, Run.ok_bind, Compressor.decompressValues_cons hd₂ (hzdec d₂)]
    rfl

theorem length_markersThen (v : Value 4) {N : Nat} (hN : 258 ≤ N) : (markersThen v N).length = N := by
  rw [markersThen, List.length_append, List.length_cons, List.length_map, List.length_range, List.length_replicate]
  omega

def markerLine (blkSize : Nat) (v : Value 4) : List (BitVec 64) := concatenate blkSize (markersThen v (2 * (blkSize / 8)))

theorem length_markerLine (blkSize : Nat) (v : Value 4) : (markerLine blkSize v).length = blkSize / 8 := by
  rw [markerLine, concatenate, List.length_map, List.length_range]

theorem lineValues_markerLine (hblk : 8 ∣ blkSize) (h : 1024 < blkSize) (v : Value 4) :
    lineValues 4 blkSize (markerLine blkSize v) = markersThen v (2 * (blkSize / 8)) :=
  lineValues_concatenate ⟨by decide, by decide⟩ hblk (length_markersThen v (by omega))

theorem markerLine_ne (hblk : 8 ∣ blkSize) (h : 1024 < blkSize) :
    markerLine blkSize (marker 0) ≠ markerLine blkSize (marker 256) := by
  intro heq
  have hvalues := congrArg (lineValues 4 blkSize) heq
  rw [lineValues_markerLine hblk h, lineValues_markerLine hblk h] at hvalues
  have hcons := List.append_cancel_left hvalues
  exact marker_ne (by decide) (by decide) (by decide) (List.cons.inj hcons).1

/-- **Above 1024 bytes CPack reads another line back.** -/
theorem roundTrip_markerLine (junk : DictionaryEntry) (hblk : 8 ∣ blkSize) (h : 1024 < blkSize) (sizeThreshold : Nat) :
    (cpack blkSize).roundTrip junk blkSize sizeThreshold (markerLine blkSize (marker 256)) =
      .ok (markerLine blkSize (marker 0)) := by
  obtain ⟨cd, d, hcomp, d', hdec⟩ := markersThen_restored junk h (2 * (blkSize / 8))
  rw [Compressor.roundTrip_eq (fun _ _ => rfl) (cpack_resetDictionary blkSize), lineValues_markerLine hblk h, hcomp]
  simp only [Run.ok_bind, hdec]
  rfl

end CPack

/-! ## Which compressors are lossless -/

/-- **A compressor restores every line, except CPack for lines of more than 1024 bytes.** -/
theorem lossless_iff (s : Scheme) {blkSize : Nat} (hpos : 0 < blkSize) (hblk : 8 ∣ blkSize) :
    (∀ junk sizeThreshold line, line.length = blkSize / 8 →
      (s.compressor blkSize).roundTrip junk blkSize sizeThreshold line = .ok line) ↔ ¬(s = .cpack ∧ 1024 < blkSize) := by
  constructor
  · rintro h ⟨rfl, hlong⟩
    have heq := h [] 0 (CPack.markerLine blkSize (CPack.marker 256)) (CPack.length_markerLine blkSize _)
    have hread := CPack.roundTrip_markerLine [] hblk hlong 0
    exact CPack.markerLine_ne hblk hlong (Except.ok.inj (hread.symm.trans heq))
  · intro hs junk sizeThreshold line hline
    exact s.roundTrip_eq_ok hpos hblk hs hline

theorem lossless_cpack_64 : (Scheme.compressor 64 .cpack).roundTrip [] 64 64 (List.replicate 8 0x0123456789abcdef) =
    .ok (List.replicate 8 0x0123456789abcdef) :=
  (@lossless_iff .cpack 64 (by decide) (by decide)).2 (by decide) [] 64 _ List.length_replicate

/-- A line of 2048 bytes is 512 values.  The 258th matches entry 256, and is read from the first. -/
theorem cpack_wraps : ∃ line line' : List (BitVec 64), line.length = 256 ∧ line' ≠ line ∧
    ∀ junk sizeThreshold, (Scheme.compressor 2048 .cpack).roundTrip junk 2048 sizeThreshold line = .ok line' :=
  ⟨CPack.markerLine 2048 (CPack.marker 256), CPack.markerLine 2048 (CPack.marker 0), CPack.length_markerLine 2048 _,
    CPack.markerLine_ne (by decide) (by decide), fun junk sizeThreshold =>
      CPack.roundTrip_markerLine junk (by decide) (by decide) sizeThreshold⟩

end Compression
end Gem5
