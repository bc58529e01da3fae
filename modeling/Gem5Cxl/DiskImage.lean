import Gem5Cxl.AddrRange
import Gem5Cxl.Bytes
import Mathlib.Data.List.AList
/-!
# DiskImage — raw disk images and copy-on-write overlays (`dev/storage/disk_image.cc`)

An overlay keeps the sectors written through it in a table and leaves its child alone, which is a raw image or another
overlay.  The table can be saved to a file and read back.  The order in which a hash table is walked is not specified;
here it is the order of the list.
-/
namespace Gem5

abbrev sectorSize : Nat := 512

abbrev Sector := { l : List Byte // l.length = sectorSize }

abbrev SectorTable := AList (fun _ : BitVec 64 => Sector)

/-- A disk image.  The size of a raw image in bytes is a `streampos`. -/
inductive DiskImage where
  | raw (readonly : Bool) (sectors : { l : List Sector // l.length < 2 ^ 54 })
  | cow (child : DiskImage) (table : SectorTable)

/-- `CowDiskImage::write` on its table.  A sector that is there is overwritten in place. -/
def SectorTable.write (table : SectorTable) (size : Nat) (data : Sector) (offset : BitVec 64) :
    Except Failure SectorTable :=
  if size < offset.toNat then .error (.panic "access out of bounds")
  else .ok (table.insert offset data)

namespace DiskImage

def size : DiskImage → Nat
  | .raw _ sectors => sectors.val.length
  | .cow child _ => child.size

def read : DiskImage → BitVec 64 → Except Failure Sector
  | .raw _ sectors, offset =>
    match sectors.val[offset.toNat]? with
    | some sector => .ok sector
    | none => .error (.panic "Could not seek to location in file")
  | .cow child table, offset =>
    if child.size < offset.toNat then .error (.panic "access out of bounds")
    else
      match table.lookup offset with
      | none => child.read offset
      | some sector => .ok sector

def write : DiskImage → Sector → BitVec 64 → Except Failure DiskImage
  | .raw readonly sectors, data, offset =>
    if readonly then .error (.panic "Cannot write to a read only disk image")
    else if offset.toNat < sectors.val.length then
      .ok (.raw readonly ⟨sectors.val.set offset.toNat data, by rw [List.length_set]; exact sectors.property⟩)
    else .error (.panic "Could not seek to location in file")
  | .cow child table, data, offset => do
    let table ← SectorTable.write table child.size data offset
    .ok (.cow child table)

def writeback (child : DiskImage) : List (Sigma fun _ : BitVec 64 => Sector) → Except Failure DiskImage
  | [] => .ok child
  | ⟨offset, sector⟩ :: rest => do
    let child ← child.write sector offset
    child.writeback rest

end DiskImage

/-! ## The file of an overlay -/

namespace SectorTable

def magic : List Byte := [0x43, 0x4F, 0x57, 0x44, 0x49, 0x53, 0x4B, 0x21]

abbrev versionMajor : Nat := 1

abbrev versionMinor : Nat := 0

def record (e : Sigma fun _ : BitVec 64 => Sector) : List Byte := Bytes.encode 8 e.1.toNat ++ e.2.val

def save (t : SectorTable) : List Byte :=
  magic ++ (Bytes.encode 4 versionMajor ++ (Bytes.encode 4 versionMinor ++
    (Bytes.encode 8 t.entries.length ++ t.entries.flatMap record)))

def safeRead (n : Nat) (stream : List Byte) : Except Failure ({ l : List Byte // l.length = n } × List Byte) :=
  if h : n ≤ stream.length then .ok (⟨stream.take n, List.length_take_of_le h⟩, stream.drop n)
  else .error (.panic "premature end-of-file")

/-- `SafeReadSwap`: a number, lowest byte first. -/
def safeReadSwap (n : Nat) (stream : List Byte) : Except Failure (Nat × List Byte) := do
  let (bytes, stream) ← safeRead n stream
  .ok (Bytes.decode bytes.val, stream)

def readSectors : Nat → List Byte → SectorTable → Except Failure SectorTable
  | 0, _, table => .ok table
  | n + 1, stream, table => do
    let (offset, stream) ← safeReadSwap 8 stream
    let (sector, stream) ← safeRead sectorSize stream
    assertThat (table.lookup (BitVec.ofNat 64 offset)).isNone
    readSectors n stream (table.insert (BitVec.ofNat 64 offset) sector)

def openFile (stream : List Byte) : Except Failure SectorTable := do
  let (bytes, stream) ← safeRead 8 stream
  panicIf (bytes.val != magic) "Could not open: Invalid magic"
  let (major, stream) ← safeReadSwap 4 stream
  let (minor, stream) ← safeReadSwap 4 stream
  panicIf (major != versionMajor && minor != versionMinor) "Could not open: invalid version"
  let (sectorCount, stream) ← safeReadSwap 8 stream
  readSectors sectorCount stream ∅

end SectorTable

/-! ## A disk and its files -/

structure CowDisk where
  child : DiskImage
  table : SectorTable
  files : String → Option (List Byte)

namespace CowDisk

def image (d : CowDisk) : DiskImage := .cow d.child d.table

inductive Op where
  | read (offset : BitVec 64)
  | write (data : Sector) (offset : BitVec 64)
  | save (file : String)
  | open_ (file : String)
  | writeback

def step (d : CowDisk) : Op → Except Failure CowDisk
  | .read offset => do
    let _ ← d.image.read offset
    .ok d
  | .write data offset => do
    let table ← SectorTable.write d.table d.child.size data offset
    .ok { d with table := table }
  | .save file => .ok { d with files := fun f => if f = file then some (SectorTable.save d.table) else d.files f }
  | .open_ file =>
    match d.files file with
    | none => .ok d
    | some bytes => do
      let table ← SectorTable.openFile bytes
      .ok { d with table := table }
  | .writeback => do
    let child ← d.child.writeback d.table.entries
    .ok { d with child := child }

end CowDisk

/-! ## Reading and writing an image -/

namespace DiskImage

def Writable : DiskImage → Prop
  | .raw readonly _ => readonly = false
  | .cow _ _ => True

theorem size_lt (img : DiskImage) : img.size < 2 ^ 54 := by
  induction img with
  | raw _ sectors => exact sectors.property
  | cow _ _ ih => exact ih

variable {k : BitVec 64} {img : DiskImage}

theorem read_ok (hk : k.toNat < img.size) : ∃ sector, img.read k = .ok sector := by
  induction img with
  | raw _ sectors => exact ⟨sectors.val[k.toNat], by rw [read, List.getElem?_eq_getElem hk]⟩
  | cow child table ih =>
    have hk : k.toNat < child.size := hk
    rw [read, if_neg (Nat.not_lt.2 (Nat.le_of_lt hk))]
    split
    · exact ih hk
    · exact ⟨_, rfl⟩

/-- **A sector written is read back**, and the others as before. -/
theorem write_ok (hw : img.Writable) (hk : k.toNat < img.size) (data : Sector) :
    ∃ img', img.write data k = .ok img' ∧ img'.size = img.size ∧ img'.Writable ∧
      ∀ k', k'.toNat < img.size → img'.read k' = if k' = k then .ok data else img.read k' := by
  cases img with
  | raw readonly sectors =>
    have hro : readonly = false := hw
    have hlt : k.toNat < sectors.val.length := hk
    subst hro
    refine ⟨.raw false ⟨sectors.val.set k.toNat data, by rw [List.length_set]; exact sectors.property⟩, ?_,
      List.length_set, rfl, fun k' hk' => ?_⟩
    · rw [write, if_neg Bool.false_ne_true, if_pos hlt]
    rw [read]
    by_cases heq : k' = k
    · subst heq
      rw [if_pos rfl, List.getElem?_set_self hlt]
    · have hne : k.toNat ≠ k'.toNat := fun h => heq (BitVec.eq_of_toNat_eq h.symm)
      rw [if_neg heq, List.getElem?_set_ne hne, read]
  | cow child table =>
    have hk : k.toNat < child.size := hk
    refine ⟨.cow child (table.insert k data), ?_, rfl, trivial, fun k' hk' => ?_⟩
    · rw [write, SectorTable.write, if_neg (Nat.not_lt.2 (Nat.le_of_lt hk))]
      rfl
    · have hk' : ¬ child.size < k'.toNat := Nat.not_lt.2 (Nat.le_of_lt hk')
      rw [read, if_neg hk']
      by_cases heq : k' = k
      · rw [if_pos heq, heq, AList.lookup_insert]
      · rw [if_neg heq, AList.lookup_insert_ne heq, read, if_neg hk']

/-- **`writeback` puts every sector of the table into the child.** -/
theorem writeback_ok {l : List (Sigma fun _ : BitVec 64 => Sector)} {child : DiskImage} (hw : child.Writable)
    (hk : ∀ e ∈ l, e.1.toNat < child.size) (hnodup : l.NodupKeys) :
    ∃ child', child.writeback l = .ok child' ∧ child'.size = child.size ∧ child'.Writable ∧
      ∀ k, k.toNat < child.size →
        child'.read k = match l.dlookup k with | some data => .ok data | none => child.read k := by
  induction l generalizing child with
  | nil => exact ⟨child, rfl, rfl, hw, fun _ _ => rfl⟩
  | cons e rest ih =>
    obtain ⟨offset, sector⟩ := e
    rw [List.forall_mem_cons] at hk
    obtain ⟨hfresh, hrest⟩ := List.nodupKeys_cons.1 hnodup
    obtain ⟨child₁, hwrite, hsize, hw₁, hread⟩ := write_ok hw hk.1 sector
    obtain ⟨child₂, hback, hsize₂, hw₂, hread₂⟩ := ih hw₁ (by rw [hsize]; exact hk.2) hrest
    refine ⟨child₂, by rw [writeback, hwrite, Run.ok_bind, hback], hsize₂.trans hsize, hw₂, fun k hlt => ?_⟩
    rw [hread₂ k (hsize ▸ hlt), hread k hlt]
    by_cases heq : k = offset
    · subst heq
      rw [List.dlookup_eq_none.2 hfresh, List.dlookup_cons_eq, if_pos rfl]
    · rw [List.dlookup_cons_ne _ _ heq, if_neg heq]

end DiskImage

/-! ## Saving and opening -/

namespace SectorTable

variable {n size : Nat} {t : SectorTable}

theorem safeRead_append {l : List Byte} (h : l.length = n) (rest : List Byte) :
    safeRead n (l ++ rest) = .ok (⟨l, h⟩, rest) := by
  have hle : n ≤ (l ++ rest).length := by rw [List.length_append]; omega
  unfold safeRead
  rw [dif_pos hle]
  simp only [List.take_left' h, List.drop_left' h]

theorem safeReadSwap_append {v : Nat} (hv : v < 256 ^ n) (rest : List Byte) :
    safeReadSwap n (Bytes.encode n v ++ rest) = .ok (v, rest) := by
  rw [safeReadSwap, safeRead_append (Bytes.length_encode n v), Run.ok_bind]
  dsimp only
  rw [Bytes.decode_encode_of_lt hv]

theorem readSectors_records {l : List (Sigma fun _ : BitVec 64 => Sector)} {table : SectorTable} (hnodup : l.NodupKeys)
    (hfresh : ∀ e ∈ l, table.lookup e.1 = none) :
    ∃ table', readSectors l.length (l.flatMap record) table = .ok table' ∧
      ∀ k, table'.lookup k = match l.dlookup k with | some data => some data | none => table.lookup k := by
  induction l generalizing table with
  | nil => exact ⟨table, rfl, fun _ => rfl⟩
  | cons e rest ih =>
    obtain ⟨offset, sector⟩ := e
    rw [List.forall_mem_cons] at hfresh
    obtain ⟨hnot, hrest⟩ := List.nodupKeys_cons.1 hnodup
    have hne : ∀ e ∈ rest, e.1 ≠ offset := fun e he heq => hnot (List.mem_map.2 ⟨e, he, heq⟩)
    have hfresh' : ∀ e ∈ rest, (table.insert offset sector).lookup e.1 = none := fun e he => by
      rw [AList.lookup_insert_ne (hne e he), hfresh.2 e he]
    obtain ⟨table', hread, hlookup⟩ := ih hrest hfresh'
    refine ⟨table', ?_, fun k => ?_⟩
    · have hoff : offset.toNat < 256 ^ 8 := by
        have := offset.isLt
        norm_num
        omega
      have hback : BitVec.ofNat 64 offset.toNat = offset := by rw [BitVec.ofNat_toNat, BitVec.setWidth_eq]
      rw [List.length_cons, readSectors, List.flatMap_cons, record, List.append_assoc, safeReadSwap_append hoff,
        Run.ok_bind]
      dsimp only
      rw [safeRead_append sector.property, Run.ok_bind]
      dsimp only
      rw [hback, hfresh.1]
      exact hread
    · rw [hlookup]
      by_cases heq : k = offset
      · subst heq
        rw [List.dlookup_eq_none.2 hnot, AList.lookup_insert, List.dlookup_cons_eq]
      · rw [List.dlookup_cons_ne _ _ heq, AList.lookup_insert_ne heq]

theorem openFile_save (ht : t.entries.length < 2 ^ 64) :
    ∃ t', openFile (save t) = .ok t' ∧ ∀ k, t'.lookup k = t.lookup k := by
  obtain ⟨t', hread, hlookup⟩ := readSectors_records t.nodupKeys fun e _ => AList.lookup_empty e.1
  refine ⟨t', ?_, fun k => ?_⟩
  · have hcount : t.entries.length < 256 ^ 8 := by
      norm_num
      omega
    have hmagic : magic.length = 8 := rfl
    unfold openFile save
    rw [safeRead_append hmagic, Run.ok_bind]
    dsimp only
    rw [show panicIf (magic != magic) "Could not open: Invalid magic" = .ok () from rfl, Run.ok_bind,
      safeReadSwap_append (by norm_num), Run.ok_bind]
    dsimp only
    rw [safeReadSwap_append (by norm_num), Run.ok_bind]
    dsimp only
    rw [show panicIf (versionMajor != versionMajor && versionMinor != versionMinor) "Could not open: invalid version" =
      .ok () from rfl, Run.ok_bind, safeReadSwap_append hcount, Run.ok_bind]
    exact hread
  · rw [hlookup]
    change _ = t.entries.dlookup k
    cases t.entries.dlookup k with
    | none => rfl
    | some data => rfl

def Within (t : SectorTable) (size : Nat) : Prop := ∀ k, t.lookup k ≠ none → k.toNat < size

theorem Within.entries (h : Within t size) : ∀ e ∈ t.entries, e.1.toNat < size := by
  intro e he
  refine h e.1 fun hnone => ?_
  rw [AList.lookup_eq_none] at hnone
  exact hnone (List.mem_map_of_mem he)

theorem Within.length_lt (h : Within t size) (hsize : size < 2 ^ 54) : t.entries.length < 2 ^ 64 := by
  have hnodup : (t.entries.map fun e => e.1.toNat).Nodup := by
    have hmap : t.entries.map (fun e => e.1.toNat) = t.keys.map BitVec.toNat := by
      rw [AList.keys, List.keys, List.map_map]
      rfl
    rw [hmap]
    exact t.keys_nodup.map fun _ _ => BitVec.eq_of_toNat_eq
  have hsub : t.entries.map (fun e => e.1.toNat) ⊆ List.range size := by
    intro n hn
    obtain ⟨e, he, rfl⟩ := List.mem_map.1 hn
    exact List.mem_range.2 (h.entries e he)
  have hle := (List.subperm_of_subset hnodup hsub).length_le
  rw [List.length_map, List.length_range] at hle
  omega

end SectorTable

/-! ## What an overlay is for -/

/-- The sectors written through the overlay, the sectors of the child, and what was saved under each name. -/
structure Overlay where
  written : BitVec 64 → Option Sector
  child : BitVec 64 → Except Failure Sector
  saved : String → Option (BitVec 64 → Option Sector)

namespace Overlay

/-- The sector last written through the overlay, or else the child's. -/
def read (o : Overlay) (k : BitVec 64) : Except Failure Sector :=
  match o.written k with
  | some data => .ok data
  | none => o.child k

def step (o : Overlay) : CowDisk.Op → Overlay
  | .read _ => o
  | .write data k => { o with written := fun k' => if k' = k then some data else o.written k' }
  | .save file => { o with saved := fun f => if f = file then some o.written else o.saved f }
  | .open_ file => { o with written := (o.saved file).getD o.written }
  | .writeback => { o with child := o.read }

end Overlay

namespace CowDisk

open SectorTable

structure Represents (d : CowDisk) (o : Overlay) : Prop where
  table : ∀ k, d.table.lookup k = o.written k
  within : Within d.table d.child.size
  child : ∀ k, k.toNat < d.child.size → d.child.read k = o.child k
  files : ∀ f w, o.saved f = some w → ∃ t, d.files f = some (save t) ∧ (∀ k, t.lookup k = w k) ∧ Within t d.child.size

/-- The calls considered: sectors of the disk, files saved before, and `writeback` to a child that can be written. -/
def Op.Allowed (d : CowDisk) (o : Overlay) : Op → Prop
  | .read k => k.toNat < d.child.size
  | .write _ k => k.toNat < d.child.size
  | .save _ => True
  | .open_ file => (o.saved file).isSome
  | .writeback => d.child.Writable

variable {k : BitVec 64} {d : CowDisk} {o : Overlay}

section

variable (h : d.Represents o)
include h

theorem Represents.read (hk : k.toNat < d.child.size) : d.image.read k = o.read k := by
  rw [image, DiskImage.read, if_neg (Nat.not_lt.2 (Nat.le_of_lt hk)), Overlay.read, ← h.table k, h.child k hk]
  cases d.table.lookup k with
  | none => rfl
  | some data => rfl

theorem Represents.write (data : Sector) (hk : k.toNat < d.child.size) :
    d.step (.write data k) = .ok { d with table := d.table.insert k data } ∧
      Represents { d with table := d.table.insert k data } (o.step (.write data k)) := by
  refine ⟨?_, ⟨fun k' => ?_, fun k' hsome => ?_, h.child, h.files⟩⟩
  · rw [step, SectorTable.write, if_neg (Nat.not_lt.2 (Nat.le_of_lt hk))]
    rfl
  · change (d.table.insert k data).lookup k' = if k' = k then some data else o.written k'
    by_cases heq : k' = k
    · rw [if_pos heq, heq, AList.lookup_insert]
    · rw [if_neg heq, AList.lookup_insert_ne heq, h.table]
  · by_cases heq : k' = k
    · exact heq ▸ hk
    · exact h.within k' (by rwa [AList.lookup_insert_ne heq] at hsome)

theorem Represents.save (file : String) :
    Represents { d with files := fun f => if f = file then some (SectorTable.save d.table) else d.files f }
      (o.step (.save file)) := by
  refine ⟨h.table, h.within, h.child, fun f w hw => ?_⟩
  change (if f = file then some o.written else o.saved f) = some w at hw
  by_cases heq : f = file
  · rw [if_pos heq, Option.some.injEq] at hw
    exact ⟨d.table, if_pos heq, hw ▸ h.table, h.within⟩
  · rw [if_neg heq] at hw
    obtain ⟨t, hf, ht⟩ := h.files f w hw
    exact ⟨t, (if_neg heq).trans hf, ht⟩

theorem Represents.open_ {file : String} (hf : (o.saved file).isSome) :
    ∃ d', d.step (.open_ file) = .ok d' ∧ d'.child = d.child ∧ d'.Represents (o.step (.open_ file)) := by
  obtain ⟨w, hw⟩ := Option.isSome_iff_exists.1 hf
  obtain ⟨t, hfile, ht, hwithin⟩ := h.files file w hw
  obtain ⟨t', hopen, hlookup⟩ := openFile_save (hwithin.length_lt d.child.size_lt)
  refine ⟨{ d with table := t' }, ?_, rfl, ⟨fun k => ?_, fun k hsome => ?_, h.child, h.files⟩⟩
  · rw [step, hfile]
    dsimp only
    rw [hopen, Run.ok_bind]
  · rw [Overlay.step, hw, Option.getD_some, hlookup, ht]
  · exact hwithin k (by rwa [← hlookup])

theorem Represents.writeback (hw : d.child.Writable) :
    ∃ d', d.step .writeback = .ok d' ∧ d'.Represents (o.step .writeback) ∧
      ∀ k, k.toNat < d.child.size → d'.child.read k = o.read k := by
  obtain ⟨child', hback, hsize, -, hread⟩ := DiskImage.writeback_ok hw h.within.entries d.table.nodupKeys
  have hchild : ∀ k, k.toNat < d.child.size → child'.read k = o.read k := by
    intro k hk
    rw [hread k hk, Overlay.read, ← h.table k, h.child k hk]
    rfl
  refine ⟨{ d with child := child' }, ?_, ⟨h.table, ?_, ?_, ?_⟩, hchild⟩
  · rw [step, hback, Run.ok_bind]
  · intro k hsome
    exact hsize ▸ h.within k hsome
  · intro k hk
    exact hchild k (hsize ▸ hk)
  · intro f w hfw
    obtain ⟨t, hf, ht, hwithin⟩ := h.files f w hfw
    exact ⟨t, hf, ht, fun k hsome => hsize ▸ hwithin k hsome⟩

/-- **One call on the disk is the call on the overlay it stands for**, and only `writeback` touches the child. -/
theorem Represents.step {op : Op} (hop : op.Allowed d o) :
    ∃ d', d.step op = .ok d' ∧ d'.Represents (o.step op) ∧ (op ≠ .writeback → d'.child = d.child) := by
  cases op with
  | read k =>
    obtain ⟨sector, hs⟩ := DiskImage.read_ok (show k.toNat < d.image.size from hop)
    exact ⟨d, by rw [CowDisk.step, hs, Run.ok_bind], h, fun _ => rfl⟩
  | write data k =>
    obtain ⟨hs, hr⟩ := h.write data hop
    exact ⟨_, hs, hr, fun _ => rfl⟩
  | save file => exact ⟨_, rfl, h.save file, fun _ => rfl⟩
  | open_ file =>
    obtain ⟨d', hs, hchild, hr⟩ := h.open_ hop
    exact ⟨d', hs, hr, fun _ => hchild⟩
  | writeback =>
    obtain ⟨d', hs, hr, -⟩ := h.writeback hop
    exact ⟨d', hs, hr, fun hne => absurd rfl hne⟩

end

inductive Reach (child : DiskImage) (files : String → Option (List Byte)) : CowDisk → Overlay → Prop
  | create : Reach child files ⟨child, ∅, files⟩ ⟨fun _ => none, child.read, fun _ => none⟩
  | step {d d' : CowDisk} {o : Overlay} (op : Op) (h : Reach child files d o) (allowed : op.Allowed d o)
      (hs : d.step op = .ok d') : Reach child files d' (o.step op)

theorem Reach.represents {child : DiskImage} {files : String → Option (List Byte)} (h : Reach child files d o) :
    d.Represents o := by
  induction h with
  | create =>
    refine ⟨fun k => AList.lookup_empty k, fun k hsome => ?_, fun _ _ => rfl, fun _ _ hf => ?_⟩
    · exact absurd (AList.lookup_empty k) hsome
    · cases hf
  | step op _ allowed hs ih =>
    obtain ⟨d', hs', hr, -⟩ := ih.step allowed
    cases hs.symm.trans hs'
    exact hr

/-- **An overlay refines its purpose**: every call returns; a read gives the sector last written through the overlay or
    else the child's; only `writeback` modifies the child, which then reads as the overlay does; and opening a saved file
    restores what was saved. -/
theorem overlay_refines {child : DiskImage} {files : String → Option (List Byte)} {d : CowDisk} {o : Overlay}
    (h : Reach child files d o) :
    (∀ k, k.toNat < d.child.size → d.image.read k = o.read k ∧ ∃ sector, o.read k = .ok sector) ∧
    (∀ op, op.Allowed d o → ∃ d', d.step op = .ok d' ∧ Reach child files d' (o.step op) ∧
      (op ≠ .writeback → d'.child = d.child)) ∧
    (∀ d', d.child.Writable → d.step .writeback = .ok d' → ∀ k, k.toNat < d.child.size → d'.child.read k = d.image.read k) ∧
    ∀ file w, o.saved file = some w → ∃ d', d.step (.open_ file) = .ok d' ∧ ∀ k, d'.table.lookup k = w k := by
  have hr := h.represents
  refine ⟨fun k hk => ⟨hr.read hk, ?_⟩, fun op hop => ?_, fun d' hw hs k hk => ?_, fun file w hfw => ?_⟩
  · rw [← hr.read hk]
    exact DiskImage.read_ok (show k.toNat < d.image.size from hk)
  · obtain ⟨d', hs, -, hchild⟩ := hr.step hop
    exact ⟨d', hs, .step op h hop hs, hchild⟩
  · obtain ⟨d'', hs', -, hread⟩ := hr.writeback hw
    cases hs.symm.trans hs'
    rw [hread k hk, hr.read hk]
  · obtain ⟨d', hs, -, hr'⟩ := hr.open_ (show (o.saved file).isSome by rw [hfw]; rfl)
    refine ⟨d', hs, fun k => ?_⟩
    rw [hr'.table, Overlay.step, hfw, Option.getD_some]

def sectorOf (b : Byte) : Sector := ⟨List.replicate sectorSize b, List.length_replicate⟩

def oneSector : DiskImage := .raw false ⟨[sectorOf 0], by decide⟩

theorem overlay_refines_oneSector : ∃ d o, Reach oneSector (fun _ => none) d o ∧ d.image.read 0 = .ok (sectorOf 1) := by
  have hk : (0 : BitVec 64).toNat < oneSector.size := Nat.one_pos
  have hs : CowDisk.step ⟨oneSector, ∅, fun _ => none⟩ (.write (sectorOf 1) 0) =
      .ok ⟨oneSector, AList.insert 0 (sectorOf 1) ∅, fun _ => none⟩ := rfl
  have h := Reach.step (.write (sectorOf 1) 0) (.create : Reach oneSector (fun _ => none) _ _) hk hs
  exact ⟨_, _, h, ((overlay_refines h).1 0 hk).1⟩

end CowDisk

end Gem5
