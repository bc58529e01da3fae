import Gem5Cxl.DictionaryCompressor
/-!
# CompressorSound — what a pattern class restores, and lines chunk by chunk

A pattern restores a value if it does so whatever dictionary entry it is given, or from the entry it was matched with.
Compression and decompression then go through the same dictionaries, as long as the location a pattern names is found
again.
-/
namespace Gem5
namespace Compression

/-! ## Bytes -/

theorem setWidth_and_lowByte {w : Nat} (v : BitVec w) : (v &&& 0xFF).setWidth 8 = v.setWidth 8 := by
  refine BitVec.eq_of_getLsbD_eq fun i hi => ?_
  rw [BitVec.getLsbD_setWidth, BitVec.getLsbD_setWidth, BitVec.getLsbD_and,
    show (0xFF : BitVec w) = BitVec.ofNat w (2 ^ 8 - 1) from rfl, Bits.getLsbD_lowMask]
  by_cases hw : i < w
  · simp [hi, hw]
  · simp [BitVec.getLsbD_of_ge v i (Nat.le_of_not_lt hw)]

theorem fromBytes_toBytes {w k : Nat} {v : BitVec w} (h : v.toNat < 2 ^ (8 * k)) : fromBytes (toBytes k v) = v := by
  induction k generalizing v with
  | zero =>
    rw [toBytes, fromBytes]
    exact BitVec.eq_of_toNat_eq (by simpa using (Nat.lt_one_iff.1 h).symm)
  | succ k ih => rw [toBytes, fromBytes, ih (Limbs.ushiftRight_lt h), setWidth_and_lowByte, Limbs.shift_or_low]

@[simp] theorem fromDictionaryEntry_toDictionaryEntry {n : Nat} (v : Value n) :
    (fromDictionaryEntry (toDictionaryEntry v) : Value n) = v :=
  fromBytes_toBytes v.isLt

/-! ## Pattern classes -/
namespace PatternClass

variable {n : Nat}

/-- The patterns of the class restore their value from any entry. -/
def Independent (cls : PatternClass n) : Prop :=
  ∀ (v : Value n) dict location, cls.isPattern (toDictionaryEntry v) dict location = true →
    ∀ e, (cls.make (toDictionaryEntry v) location).decompress e = toDictionaryEntry v

/-- The patterns of the class restore their value, if need be from the entry at the location they keep. -/
def Sound (cls : PatternClass n) : Prop :=
  ∀ (v : Value n) dict location, cls.isPattern (toDictionaryEntry v) dict location = true →
    (∀ e, (cls.make (toDictionaryEntry v) location).decompress e = toDictionaryEntry v) ∨
      0 ≤ location ∧ (cls.make (toDictionaryEntry v) location).matchLocation = location ∧
        (cls.make (toDictionaryEntry v) location).decompress dict = toDictionaryEntry v

theorem Independent.sound {cls : PatternClass n} (h : cls.Independent) : cls.Sound := fun v dict location hp =>
  .inl (h v dict location hp)

theorem delta_independent (deltaSizeBits number code length : Nat) :
    (delta deltaSizeBits number code length : PatternClass n).Independent := fun _ _ _ _ _ => rfl

theorem unmatched_or (mask v x : Value n) (h : v &&& mask = x &&& mask) :
    unmatched mask (toDictionaryEntry v) ||| x &&& mask = v := by
  rw [unmatched, fromDictionaryEntry_toDictionaryEntry, ← h]
  refine BitVec.eq_of_getLsbD_eq fun i hi => ?_
  simp only [BitVec.getLsbD_or, BitVec.getLsbD_and, BitVec.getLsbD_not, hi]
  cases v.getLsbD i <;> cases mask.getLsbD i <;> rfl

theorem masked_sound (mask : Value n) (number code length : Nat) (allocate : Bool) :
    (masked mask number code length allocate).Sound := by
  intro v dict location hp
  obtain ⟨hloc, hm⟩ := Bool.and_eq_true_iff.1 hp
  rw [decide_eq_true_eq, fromDictionaryEntry_toDictionaryEntry] at hm
  exact .inr ⟨of_decide_eq_true hloc, rfl, congrArg toDictionaryEntry (unmatched_or mask v _ hm)⟩

theorem locatedMasked_sound (mask : Value n) (index : Int) (number code length : Nat) :
    (locatedMasked mask index number code length).Sound := fun v dict location hp =>
  masked_sound mask number code length true v dict location (Bool.and_eq_true_iff.1 hp).2

theorem maskedValue_independent (value mask : Value n) (number code length : Nat) (loc : Int → Int) (allocate : Bool) :
    (maskedValue value mask number code length loc allocate).Independent := by
  intro v dict location hp e
  have hm : value &&& mask = v &&& mask := by
    have := of_decide_eq_true hp
    rwa [fromDictionaryEntry_toDictionaryEntry] at this
  change decompressMasked mask (unmatched mask (toDictionaryEntry v)) (toDictionaryEntry value) = _
  rw [decompressMasked, fromDictionaryEntry_toDictionaryEntry, unmatched_or mask v value hm.symm]

theorem repeatValue_of_isRepeated {w rep k : Nat} {r : Value rep} {v : BitVec w} (hv : v.toNat < 2 ^ (8 * rep * k))
    (h : isRepeated r k v = true) : repeatValue r k = v := by
  induction k generalizing v with
  | zero => exact BitVec.eq_of_toNat_eq (by simpa [repeatValue] using (Nat.lt_one_iff.1 hv).symm)
  | succ k ih =>
    obtain ⟨hlow, hrest⟩ := Bool.and_eq_true_iff.1 h
    rw [repeatValue, ih (Limbs.ushiftRight_lt hv) hrest, ← of_decide_eq_true hlow, Limbs.shift_or_low]

theorem repeatedValue_independent {rep : Nat} (hrep : rep ∣ n) (number code length : Nat) (loc : Int → Int)
    (allocate : Bool) : (repeatedValue rep number code length loc allocate : PatternClass n).Independent := by
  intro v dict location hp e
  have hmul : 8 * rep * (n / rep) = 8 * n := by rw [Nat.mul_assoc, Nat.mul_div_cancel' hrep]
  change toDictionaryEntry
    (repeatValue ((fromDictionaryEntry (toDictionaryEntry v) : Value n).setWidth (8 * rep)) (n / rep)) = _
  have hp' : isRepeated ((fromDictionaryEntry (toDictionaryEntry v) : Value n).setWidth (8 * rep)) (n / rep)
      (fromDictionaryEntry (toDictionaryEntry v) : Value n) = true := hp
  rw [fromDictionaryEntry_toDictionaryEntry] at hp' ⊢
  have hlt : v.toNat < 2 ^ (8 * rep * (n / rep)) := by
    rw [hmul]
    exact v.isLt
  rw [repeatValue_of_isRepeated hlt hp']

theorem signExtended_independent {N : Nat} (hpos : 0 < N) (hN : N < 64) (number code length : Nat) :
    (signExtended N number code length : PatternClass n).Independent := by
  intro v dict location hp e
  have hp' : (fromDictionaryEntry (toDictionaryEntry v) : Value n) =
      (szext N ((fromDictionaryEntry (toDictionaryEntry v) : Value n).setWidth 64)).setWidth (8 * n) :=
    of_decide_eq_true hp
  change toDictionaryEntry ((sext N ((((fromDictionaryEntry (toDictionaryEntry v) : Value n).setWidth 64 &&&
    mask N).setWidth (8 * n)).setWidth 64)).setWidth (8 * n)) = _
  rw [fromDictionaryEntry_toDictionaryEntry] at hp' ⊢
  have hkeep : ((v.setWidth 64 &&& mask N).setWidth (8 * n)).setWidth 64 = v.setWidth 64 &&& mask N := by
    refine BitVec.eq_of_getLsbD_eq fun i hi => ?_
    rw [BitVec.getLsbD_setWidth, BitVec.getLsbD_setWidth, BitVec.getLsbD_and, BitVec.getLsbD_setWidth]
    by_cases hin : i < 8 * n
    · simp [hi, hin]
    · simp [BitVec.getLsbD_of_ge v i (Nat.le_of_not_lt hin)]
  rw [hkeep, sext_and_mask hpos hN, ← hp']

end PatternClass

/-! ## One value -/
namespace Compressor

variable {n : Nat} {c : Compressor n} {d d' : Dictionary} {v : Value n} {p : Pattern n} {junk : DictionaryEntry}

/-- The pattern restores the value, from anything or from the entry it was matched with. -/
def Restores (d : Dictionary) (v : Value n) (p : Pattern n) : Prop :=
  (∀ e, p.decompress e = toDictionaryEntry v) ∨
    ∃ i < d.numEntries, p.matchLocation = i ∧ p.decompress (d.entries.getD i []) = toDictionaryEntry v

theorem getPattern_mem (c : Compressor n) (bytes dict : DictionaryEntry) (location : Int) :
    (∃ cls ∈ c.factory, cls.isPattern bytes dict location = true ∧
      c.getPattern bytes dict location = cls.make bytes location) ∨
      c.getPattern bytes dict location = c.last.make bytes location := by
  unfold Compressor.getPattern
  cases hf : c.factory.find? fun cls => cls.isPattern bytes dict location with
  | none => exact .inr rfl
  | some cls =>
    have hp := List.find?_some hf
    exact .inl ⟨cls, List.mem_of_find?_eq_some hf, hp, rfl⟩

def LastRestores (c : Compressor n) : Prop :=
  ∀ (v : Value n) location e, (c.last.make (toDictionaryEntry v) location).decompress e = toDictionaryEntry v

/-- Every class of the compressor is sound, and the last one takes any value. -/
structure Sound (c : Compressor n) : Prop where
  factory : ∀ cls ∈ c.factory, cls.Sound
  last : c.LastRestores

theorem Sound.getPattern (h : c.Sound) (v : Value n) (dict : DictionaryEntry) (location : Int) :
    (∀ e, (c.getPattern (toDictionaryEntry v) dict location).decompress e = toDictionaryEntry v) ∨
      0 ≤ location ∧ (c.getPattern (toDictionaryEntry v) dict location).matchLocation = location ∧
        (c.getPattern (toDictionaryEntry v) dict location).decompress dict = toDictionaryEntry v := by
  rcases c.getPattern_mem (toDictionaryEntry v) dict location with ⟨cls, hcls, hp, heq⟩ | heq
  · rw [heq]
    exact h.factory cls hcls v dict location hp
  · rw [heq]
    exact .inl (h.last v location)

theorem better_eq (bytes : DictionaryEntry) (i : Nat) : c.better d bytes p i =
    if (c.getPattern bytes (d.entries.getD i []) i).getSizeBits < p.getSizeBits then
      c.getPattern bytes (d.entries.getD i []) i else p := rfl

theorem choose_mem (c : Compressor n) (d : Dictionary) (bytes : DictionaryEntry) :
    c.choose d bytes = c.getPattern bytes (toDictionaryEntry (0 : Value n)) (-1) ∨
      ∃ i < d.numEntries, c.choose d bytes = c.getPattern bytes (d.entries.getD i []) i := by
  refine List.foldlRecOn (motive := fun p => p = c.getPattern bytes (toDictionaryEntry (0 : Value n)) (-1) ∨
    ∃ i < d.numEntries, p = c.getPattern bytes (d.entries.getD i []) i) _ _ (.inl rfl) fun p hp i hi => ?_
  rw [better_eq]
  split
  · exact .inr ⟨i, List.mem_range.1 hi, rfl⟩
  · exact hp

theorem Sound.choose (h : c.Sound) (d : Dictionary) (v : Value n) : Restores d v (c.choose d (toDictionaryEntry v)) := by
  rcases c.choose_mem d (toDictionaryEntry v) with heq | ⟨i, hi, heq⟩
  · rw [heq]
    rcases h.getPattern v (toDictionaryEntry (0 : Value n)) (-1) with hany | ⟨hloc, -⟩
    · exact .inl hany
    · exact absurd hloc (by decide)
  · rw [heq]
    exact (h.getPattern v (d.entries.getD i []) i).imp id fun ⟨_, hloc, hdec⟩ => ⟨i, hi, hloc, hdec⟩

theorem choose_independent (h : ∀ cls ∈ c.factory, cls.Independent) (hlast : c.LastRestores) (d : Dictionary) (v : Value n)
    (e : DictionaryEntry) : (c.choose d (toDictionaryEntry v)).decompress e = toDictionaryEntry v := by
  have hget : ∀ dict location, (c.getPattern (toDictionaryEntry v) dict location).decompress e = toDictionaryEntry v := by
    intro dict location
    rcases c.getPattern_mem (toDictionaryEntry v) dict location with ⟨cls, hcls, hp, heq⟩ | heq
    · rw [heq, h cls hcls v dict location hp e]
    · rw [heq, hlast v location e]
  rcases c.choose_mem d (toDictionaryEntry v) with heq | ⟨i, -, heq⟩
  · rw [heq, hget]
  · rw [heq, hget]

theorem compressValue_eq_ok : c.compressValue d v = .ok (p, d') ↔
    p = c.choose d (toDictionaryEntry v) ∧ c.update d p (toDictionaryEntry v) = .ok d' := by
  unfold compressValue
  rw [Run.bind_eq_ok]
  constructor
  · rintro ⟨d₁, hd, h⟩
    cases h
    exact ⟨rfl, hd⟩
  · rintro ⟨rfl, hd⟩
    exact ⟨d', hd, rfl⟩

theorem getMatchLocation_of_lt {i : Nat} (hloc : p.matchLocation = i) (hi : i < 256) : p.getMatchLocation = i := by
  rw [Pattern.getMatchLocation, hloc]
  omega

def Found (junk : DictionaryEntry) (d : Dictionary) (v : Value n) (p : Pattern n) : Prop :=
  p.decompress (d.entries.getD p.getMatchLocation junk) = toDictionaryEntry v

theorem Restores.found (h : Restores d v p) (junk : DictionaryEntry) (hd : d.numEntries ≤ 256) : Found junk d v p := by
  rcases h with hany | ⟨i, hi, hloc, hdec⟩
  · exact hany _
  · have hlen := Nat.lt_of_lt_of_le hi d.le
    rw [Found, getMatchLocation_of_lt hloc (by omega), List.getD_eq_getElem _ _ hlen, ← List.getD_eq_getElem _ [] hlen]
    exact hdec

/-- **A pattern that is found decompresses to its value, and leaves the dictionary of compression.** -/
theorem decompressValue_of_found (hf : Found junk d v p) (h : c.update d p (toDictionaryEntry v) = .ok d') :
    c.decompressValue junk d p = .ok (v, d') := by
  rw [Found] at hf
  simp only [decompressValue, hf, h, Run.ok_bind, fromDictionaryEntry_toDictionaryEntry]

/-! ## The values of a line -/

def SameValue (p q : Pattern n) : Prop :=
  p.matchLocation = q.matchLocation ∧ p.allocate = q.allocate ∧ p.payload = q.payload

theorem decompressValue_congr {q : Pattern n} (h : SameValue p q) :
    c.decompressValue junk d p = c.decompressValue junk d q := by
  obtain ⟨hloc, halloc, hpay⟩ := h
  simp only [decompressValue, Pattern.decompress, Pattern.getMatchLocation, update, hloc, halloc, hpay]

theorem compressValues_cons {cd : CompData n} (values : List (Value n)) (h : c.compressValue d v = .ok (p, d')) :
    c.compressValues d cd (v :: values) = c.compressValues d' (c.addEntry cd p) values := by
  rw [compressValues, h]
  rfl

theorem decompressValues_cons {ps : List (Pattern n)} {values : List (Value n)} {d'' : Dictionary}
    (h : c.decompressValue junk d p = .ok (v, d')) (hps : c.decompressValues junk d' ps = .ok (values, d'')) :
    c.decompressValues junk d (p :: ps) = .ok (v :: values, d'') := by
  rw [decompressValues, h]
  simp only [Run.ok_bind, hps]

/-- What holds of the dictionary along a line: `I k` after the first `k` values.  Then the next value is compressed, and
its pattern is found again. -/
structure Keeps (c : Compressor n) (junk : DictionaryEntry) (values : List (Value n)) (I : Nat → Dictionary → Prop) :
    Prop where
  step : ∀ k v, values[k]? = some v → ∀ d, I k d →
    ∃ d', c.update d (c.choose d (toDictionaryEntry v)) (toDictionaryEntry v) = .ok d' ∧ I (k + 1) d' ∧
      Found junk d v (c.choose d (toDictionaryEntry v))
  addEntry : ∀ cd p, ∃ q, (c.addEntry cd p).entries = cd.entries ++ [q] ∧ SameValue q p

theorem Keeps.tail {values : List (Value n)} {I : Nat → Dictionary → Prop} (h : c.Keeps junk (v :: values) I) :
    c.Keeps junk values fun k => I (k + 1) where
  step k v' hv d hI := h.step (k + 1) v' (by rw [List.getElem?_cons_succ]; exact hv) d hI
  addEntry := h.addEntry

theorem Keeps.values : ∀ (values : List (Value n)) (I : Nat → Dictionary → Prop) (d : Dictionary) (cd : CompData n),
    c.Keeps junk values I → I 0 d → ∃ cd' d' ps, c.compressValues d cd values = .ok (cd', d') ∧
      cd'.entries = cd.entries ++ ps ∧ I values.length d' ∧ c.decompressValues junk d ps = .ok (values, d')
  | [], I, d, cd, _, hI => ⟨cd, d, [], rfl, (List.append_nil _).symm, hI, rfl⟩
  | v :: values, I, d, cd, h, hI => by
    obtain ⟨d₁, hup, hI₁, hfound⟩ := h.step 0 v rfl d hI
    obtain ⟨q, hq, hsame⟩ := h.addEntry cd (c.choose d (toDictionaryEntry v))
    obtain ⟨cd', d', ps, hcomp, hentries, hI', hdec⟩ :=
      Keeps.values values (fun k => I (k + 1)) d₁ (c.addEntry cd (c.choose d (toDictionaryEntry v))) h.tail hI₁
    have hval := decompressValue_of_found hfound hup
    refine ⟨cd', d', q :: ps, ?_, ?_, hI', ?_⟩
    · rw [compressValues_cons values (compressValue_eq_ok.2 ⟨rfl, hup⟩), hcomp]
    · rw [hentries, hq, List.append_assoc, List.singleton_append]
    · exact decompressValues_cons (by rw [decompressValue_congr hsame, hval]) hdec

end Compressor

/-! ## Chunks -/

theorem getLsbD_bits_chunk (x : BitVec 64) {c : Nat} (s : Nat) {i : Nat} (hi : i < c) :
    ((bits x ((s + 1) * c - 1) (s * c)).setWidth c).getLsbD i = x.getLsbD (s * c + i) := by
  have hwidth : (s + 1) * c - 1 - s * c + 1 = c := by
    rw [Nat.add_mul, Nat.one_mul]
    omega
  rw [BitVec.getLsbD_setWidth, bits, hwidth, BitVec.getLsbD_and, BitVec.getLsbD_ushiftRight, decide_eq_true hi,
    Bool.true_and]
  by_cases hc64 : c < 64
  · rw [getLsbD_mask hc64, decide_eq_true hi, Bool.and_true]
  · rw [mask, if_pos (Nat.le_of_not_lt hc64), BitVec.getLsbD_allOnes]
    by_cases hi64 : i < 64
    · simp [hi64]
    · rw [BitVec.getLsbD_of_ge x _ (by omega)]
      rfl

section Chunks

variable {n blkSize : Nat} {data : List (BitVec 64)} {values : List (Value n)}

structure ChunkSize (n : Nat) : Prop where
  pos : 0 < n
  dvd : n ∣ 8

theorem ChunkSize.words (h : ChunkSize n) (hblk : 8 ∣ blkSize) :
    64 / (8 * n) = 8 / n ∧ blkSize * 8 / (8 * n) = 8 / n * (blkSize / 8) ∧ 8 / n * (8 * n) = 64 ∧ 0 < 8 / n := by
  obtain ⟨k, hk⟩ := h.dvd
  obtain ⟨m, rfl⟩ := hblk
  have hpos := h.pos
  have h8 : 8 / n = k := by rw [hk, Nat.mul_div_cancel_left _ hpos]
  have hkpos : 0 < k := by
    rcases Nat.eq_zero_or_pos k with rfl | hk0
    · simp at hk
    · exact hk0
  rw [h8, Nat.mul_div_cancel_left m (by decide)]
  refine ⟨?_, ?_, ?_, hkpos⟩
  · rw [show (64 : Nat) = 8 * n * k by rw [Nat.mul_assoc, ← hk], Nat.mul_div_cancel_left _ (by omega)]
  · rw [show 8 * m * 8 = 8 * n * (k * m) by rw [Nat.mul_assoc 8 n, ← Nat.mul_assoc n, ← hk, Nat.mul_comm (8 * m)],
      Nat.mul_div_cancel_left _ (by omega)]
  · rw [Nat.mul_left_comm, Nat.mul_comm k, ← hk]

def lineValues (n blkSize : Nat) (data : List (BitVec 64)) : List (Value n) :=
  (toChunks (8 * n) blkSize data).map fun chunk => chunk.setWidth (8 * n)

theorem length_lineValues (data : List (BitVec 64)) (h : ChunkSize n) (hblk : 8 ∣ blkSize) :
    (lineValues n blkSize data).length = 8 / n * (blkSize / 8) := by
  rw [lineValues, toChunks, List.length_map, List.length_map, List.length_range, (h.words hblk).2.1]

theorem getLsbD_lineValues (data : List (BitVec 64)) (h : ChunkSize n) (hblk : 8 ∣ blkSize) {i j b : Nat}
    (hi : i < blkSize / 8) (hj : j < 8 / n) (hb : b < 8 * n) : ((lineValues n blkSize data).getD (8 / n * i + j) 0).getLsbD b =
      (data.getD i 0).getLsbD (j * (8 * n) + b) := by
  obtain ⟨h64, hlen, -, hkpos⟩ := h.words hblk
  have hlt : 8 / n * i + j < blkSize * 8 / (8 * n) := by
    rw [hlen]
    calc 8 / n * i + j < 8 / n * i + 8 / n := Nat.add_lt_add_left hj _
      _ = 8 / n * (i + 1) := by rw [Nat.mul_succ]
      _ ≤ 8 / n * (blkSize / 8) := Nat.mul_le_mul_left _ hi
  have hdiv : (8 / n * i + j) / (8 / n) = i := by
    rw [Nat.mul_add_div hkpos, Nat.div_eq_of_lt hj, Nat.add_zero]
  have hmod : (8 / n * i + j) % (8 / n) = j := by rw [Nat.mul_add_mod, Nat.mod_eq_of_lt hj]
  have hget : (lineValues n blkSize data).getD (8 / n * i + j) 0 =
      (bits (data.getD i 0) ((j + 1) * (8 * n) - 1) (j * (8 * n))).setWidth (8 * n) := by
    rw [lineValues, toChunks, List.getD_eq_getElem?_getD, List.getElem?_map, List.getElem?_map,
      List.getElem?_range hlt]
    simp only [Option.map_some, Option.getD_some, h64, hdiv, hmod]
  rw [hget, getLsbD_bits_chunk _ _ hb]

theorem concatenate_lineValues (h : ChunkSize n) (hblk : 8 ∣ blkSize) (hdata : data.length = blkSize / 8) :
    concatenate blkSize (lineValues n blkSize data) = data := by
  obtain ⟨-, -, h64, hkpos⟩ := h.words hblk
  have hn := h.pos
  refine List.ext_getElem (by rw [concatenate, List.length_map, List.length_range, hdata]) fun i hi hi' => ?_
  rw [hdata] at hi'
  simp only [concatenate, List.getElem_map, List.getElem_range]
  refine BitVec.eq_of_getLsbD_eq fun b hb => ?_
  have hj : b / (8 * n) < 8 / n := (Nat.div_lt_iff_lt_mul (by omega)).2 (h64.symm ▸ hb)
  rw [Limbs.getLsbD_join _ hb (by omega), decide_eq_true hj,
    getLsbD_lineValues data h hblk hi' hj (Nat.mod_lt _ (by omega)), Nat.mul_comm (b / (8 * n)), Nat.div_add_mod,
    List.getD_eq_getElem _ _ (hdata ▸ hi')]
  simp

theorem lineValues_concatenate (h : ChunkSize n) (hblk : 8 ∣ blkSize) (hvalues : values.length = 8 / n * (blkSize / 8)) :
    lineValues n blkSize (concatenate blkSize values) = values := by
  obtain ⟨-, -, h64, hkpos⟩ := h.words hblk
  have hn := h.pos
  refine List.ext_getElem (by rw [length_lineValues _ h hblk, hvalues]) fun i hi hi' => ?_
  have hj : i % (8 / n) < 8 / n := Nat.mod_lt _ hkpos
  have hword : i / (8 / n) < blkSize / 8 := (Nat.div_lt_iff_lt_mul hkpos).2 (by rw [Nat.mul_comm, ← hvalues]; exact hi')
  have hidx : 8 / n * (i / (8 / n)) + i % (8 / n) = i := Nat.div_add_mod i (8 / n)
  refine BitVec.eq_of_getLsbD_eq fun b hb => ?_
  have hbit := getLsbD_lineValues (concatenate blkSize values) h hblk hword hj hb
  rw [hidx, List.getD_eq_getElem _ _ hi] at hbit
  have hplace : i % (8 / n) * (8 * n) + b < 64 := by
    calc i % (8 / n) * (8 * n) + b < i % (8 / n) * (8 * n) + 8 * n := Nat.add_lt_add_left hb _
      _ = (i % (8 / n) + 1) * (8 * n) := by rw [Nat.add_mul, Nat.one_mul]
      _ ≤ 8 / n * (8 * n) := Nat.mul_le_mul_right _ hj
      _ = 64 := h64
  have hdiv : (i % (8 / n) * (8 * n) + b) / (8 * n) = i % (8 / n) := by
    rw [Nat.mul_comm, Nat.mul_add_div (by omega), Nat.div_eq_of_lt hb, Nat.add_zero]
  have hmod : (i % (8 / n) * (8 * n) + b) % (8 * n) = b := by
    rw [Nat.mul_comm, Nat.mul_add_mod, Nat.mod_eq_of_lt hb]
  have hcat : (concatenate blkSize values).getD (i / (8 / n)) 0 =
      Limbs.join (fun j => values.getD (8 / n * (i / (8 / n)) + j) 0) (8 / n) 0 := by
    rw [concatenate, List.getD_eq_getElem?_getD, List.getElem?_map, List.getElem?_range hword]
    rfl
  rw [hbit, hcat, Limbs.getLsbD_join _ hplace (by omega), hdiv, hmod, decide_eq_true hj, hidx,
    List.getD_eq_getElem _ _ hi']
  simp

end Chunks
end Compression
end Gem5
