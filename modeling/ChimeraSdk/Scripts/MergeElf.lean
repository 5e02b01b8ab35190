import Mathlib.Data.List.Forall2

/-! # Merging Device Images into the Host Image

    `merge_elf.py` parses the host ELF and one ELF per device with `lief`
    and embeds the LOAD segments of the devices into the host, at their
    physical addresses.  The header of the script describes them as
    read-only data: the execute flag is to be stripped on the way.

    `lief` is a parameter of the model.  What it is relied on for is
    stated as laws about the LOAD segments of a binary. -/

namespace MergeElf

/-! ## Section 1: Binaries -/

inductive SegmentType where
  | LOAD
  | other (p_type : BitVec 32)
  deriving DecidableEq, Repr

/-- `lief.ELF.Segment` -/
structure Segment where
  type : SegmentType
  flags : BitVec 32
  virtual_address : Nat
  physical_address : Nat
  virtual_size : Nat
  content : List UInt8
  deriving DecidableEq, Repr

/-- `lief.ELF.Section` -/
structure Section where
  name : List Char
  size : Nat
  virtual_address : Nat
  deriving DecidableEq, Repr

/-- The segment has no address that is none of the section. -/
def Segment.Inside (seg : Segment) (sec : Section) : Prop :=
  sec.virtual_address ≤ seg.virtual_address ∧
    seg.virtual_address + seg.virtual_size ≤ sec.virtual_address + sec.size

instance (seg : Segment) (sec : Section) : Decidable (seg.Inside sec) :=
  inferInstanceAs (Decidable (_ ∧ _))

/-- `lief.ELF.Binary` -/
structure Binary where
  sections : List Section
  segments : List Segment
  deriving DecidableEq, Repr

def FLAGS_X : BitVec 32 := 1
def FLAGS_W : BitVec 32 := 2
def FLAGS_R : BitVec 32 := 4

/-- What a LOAD segment makes a loader do. -/
structure Load where
  address : Nat
  flags   : BitVec 32
  content : List UInt8
  deriving DecidableEq, Repr

def Segment.toLoad (seg : Segment) : Load :=
  { address := seg.virtual_address, flags := seg.flags, content := seg.content }

namespace Binary

/-- The LOAD segments in the order of the file. -/
def loadSegments (b : Binary) : List Segment := b.segments.filter (fun seg => seg.type = .LOAD)

def loads (b : Binary) : List Load := b.loadSegments.map Segment.toLoad

def get_section (b : Binary) (name : List Char) : Option Section :=
  b.sections.find? (fun sec => sec.name = name)

end Binary

abbrev Path : Type := List Char

/-- The library: `parse` yields nothing for a file it cannot parse, `add`
    takes a segment with the address to place it at, `addSection` is `add`
    of a section with `loaded = False`.  `backs` tells which segments go
    with a section that is removed. -/
structure Lief where
  parse : Path → Option Binary
  add : Binary → Segment → Nat → Binary
  addSection : Binary → Section → Binary
  remove : Binary → Section → Binary
  backs : Section → Segment → Bool

/-- What the script relies on.  With a section, only segments go that hold
    nothing else. -/
structure Lief.Lawful (lief : Lief) : Prop where
  backs_inside : ∀ (sec : Section) (seg : Segment), lief.backs sec seg = true → seg.Inside sec
  add_loads : ∀ (b : Binary) (seg : Segment) (base : Nat), seg.type = .LOAD →
    (lief.add b seg base).loads =
      b.loads ++ [{ address := base, flags := seg.flags, content := seg.content }]
  addSection_loads : ∀ (b : Binary) (sec : Section), (lief.addSection b sec).loads = b.loads
  remove_loads : ∀ (b : Binary) (sec : Section),
    (lief.remove b sec).loads =
      (b.loadSegments.filter (fun seg => !lief.backs sec seg)).map Segment.toLoad

/-! ## Section 2: The script -/

/-- `Path.stem`: the last component of a path without its suffix. -/
def _name_from_path (path : Path) : List Char :=
  let name := ((path.splitOn '/').filter (fun c => c ≠ [] ∧ c ≠ ['.'])).getLastD []
  let suffix := (name.reverse.takeWhile (· ≠ '.')).reverse
  let stem := name.take (name.length - suffix.length - 1)
  -- a name that begins or ends with its last dot has no suffix
  if suffix = [] ∨ stem = [] then name else stem

example : _name_from_path "build/snitch_cluster_0.elf".toList = "snitch_cluster_0".toList := by
  decide

/-- The filter of `sections`. -/
def keepSection (sec : Section) : Bool :=
  sec.size > 0 && sec.virtual_address != 0 && sec.name != ".reserved".toList &&
    sec.name != ".common".toList

/-- The filter of `load_segments`. -/
def keepSegment (seg : Segment) : Bool :=
  seg.type = .LOAD && seg.content.length > 0 && seg.virtual_address != 0

variable (lief : Lief)

/-- `seg.virtual_address = seg.physical_address`, and the call of `add`. -/
def addSegment (host : Binary) (seg : Segment) : Binary :=
  lief.add host { seg with virtual_address := seg.physical_address } seg.physical_address

/-- The body of the loop over the device paths; `none` is the exit on a
    file that cannot be parsed. -/
def embed (host : Binary) (dev_path : Path) : Option Binary := do
  let dev_name := _name_from_path dev_path
  let device ← lief.parse dev_path
  let sections := device.sections.filter keepSection
  let load_segments := device.segments.filter keepSegment
  let host := load_segments.foldl (addSegment lief) host
  return sections.foldl
    (fun host sec => lief.addSection host { sec with name := dev_name ++ sec.name }) host

/-- `host.remove(reserved_sec)`, if there is one. -/
def removeReserved (host : Binary) : Binary :=
  match host.get_section ".reserved".toList with
  | none => host
  | some reserved_sec => lief.remove host reserved_sec

/-- The binary that `host.write` puts into the output file. -/
def merge_elfs (host_path : Path) (device_paths : List Path) : Option Binary := do
  let host ← lief.parse host_path
  device_paths.foldlM (embed lief) (removeReserved lief host)

/-! ## Section 3: What the merged image is -/

/-- The LOAD segments of the host that stay: those that do not go with the
    `.reserved` section. -/
def hostLoads (host : Binary) : List Load :=
  match host.get_section ".reserved".toList with
  | none => host.loads
  | some sec => (host.loadSegments.filter (fun seg => !lief.backs sec seg)).map Segment.toLoad

/-- The segments of a device that are embedded. -/
def embedded (device : Binary) : List Segment := device.segments.filter keepSegment

/-- A LOAD segment is the data of a device segment: it lies at the
    segment's physical address and differs from it at most in the execute
    flag, which is clear. -/
structure IsDataOf (seg : Segment) (load : Load) : Prop where
  address : load.address = seg.physical_address
  content : load.content = seg.content
  not_executable : load.flags &&& FLAGS_X = 0
  read : load.flags &&& FLAGS_R = seg.flags &&& FLAGS_R
  write : load.flags &&& FLAGS_W = seg.flags &&& FLAGS_W

/-- The merged image: the host, and after it the devices in order. -/
def MergedImage (host : Binary) (devices : List Binary) (merged : Binary) : Prop :=
  ∃ data, merged.loads = hostLoads lief host ++ data ∧
    List.Forall₂ IsDataOf (devices.flatMap embedded) data

/-- What `addSegment` appends. -/
def Segment.placed (seg : Segment) : Load :=
  { address := seg.physical_address, flags := seg.flags, content := seg.content }

section merge

variable {lief} (hlief : lief.Lawful)
include hlief

theorem foldl_addSegment_loads (segs : List Segment) (hseg : ∀ seg ∈ segs, seg.type = .LOAD)
    (host : Binary) :
    (segs.foldl (addSegment lief) host).loads = host.loads ++ segs.map Segment.placed := by
  induction segs generalizing host with
  | nil => exact (List.append_nil _).symm
  | cons seg segs ih =>
    have hadd : (addSegment lief host seg).loads = host.loads ++ [seg.placed] :=
      hlief.add_loads host _ _ (hseg seg (List.mem_cons_self ..))
    rw [List.foldl_cons, ih (fun s hs => hseg s (List.mem_cons_of_mem _ hs)), hadd,
      List.append_assoc, List.map_cons]
    rfl

/-- Sections are added without being loaded. -/
theorem foldl_addSection_loads (f : Section → Section) (secs : List Section) (host : Binary) :
    (secs.foldl (fun host sec => lief.addSection host (f sec)) host).loads = host.loads := by
  induction secs generalizing host with
  | nil => rfl
  | cons sec secs ih => rw [List.foldl_cons, ih, hlief.addSection_loads]

theorem removeReserved_loads (host : Binary) :
    (removeReserved lief host).loads = hostLoads lief host := by
  unfold removeReserved hostLoads
  cases host.get_section ".reserved".toList with
  | none => rfl
  | some sec => exact hlief.remove_loads host sec

/-- **One device**: its embedded segments follow what is there, with the
    flags they had. -/
theorem embed_loads {dev_path : Path} {device : Binary} (hdev : lief.parse dev_path = some device)
    (host : Binary) :
    ∃ host', embed lief host dev_path = some host' ∧
      host'.loads = host.loads ++ (embedded device).map Segment.placed := by
  have hload : ∀ seg ∈ embedded device, seg.type = .LOAD := by
    intro seg hseg
    have := (List.mem_filter.mp hseg).2
    simp only [keepSegment, Bool.and_eq_true, decide_eq_true_eq] at this
    exact this.1.1
  refine ⟨_, by simp only [embed, hdev, Option.bind_eq_bind, Option.bind_some]; rfl, ?_⟩
  rw [foldl_addSection_loads hlief]
  exact foldl_addSegment_loads hlief (embedded device) hload host

/-- **All devices**, one after the other. -/
theorem foldlM_embed_loads (device_paths : List Path) (devices : List Binary)
    (hdevs : device_paths.map lief.parse = devices.map some) (host : Binary) :
    ∃ merged, device_paths.foldlM (embed lief) host = some merged ∧
      merged.loads = host.loads ++ (devices.flatMap embedded).map Segment.placed := by
  induction device_paths generalizing devices host with
  | nil =>
    cases devices with
    | nil => exact ⟨host, rfl, (List.append_nil _).symm⟩
    | cons device devices => cases hdevs
  | cons dev_path device_paths ih =>
    cases devices with
    | nil => cases hdevs
    | cons device devices =>
      rw [List.map_cons, List.map_cons, List.cons.injEq] at hdevs
      obtain ⟨host', hembed, hloads'⟩ := embed_loads hlief hdevs.1 host
      obtain ⟨merged, hmerged, hloads⟩ := ih devices hdevs.2 host'
      refine ⟨merged, ?_, ?_⟩
      · rw [List.foldlM_cons, hembed]
        exact hmerged
      · rw [hloads, hloads', List.append_assoc, ← List.map_append, List.flatMap_cons]

end merge

theorem isDataOf_placed_iff (seg : Segment) :
    IsDataOf seg seg.placed ↔ seg.flags &&& FLAGS_X = 0 := by
  constructor
  · intro h
    exact h.not_executable
  · intro h
    exact ⟨rfl, rfl, h, rfl, rfl⟩

/-- **When the merged image is right**: for files that `lief` can parse,
    the merge succeeds, and its image is the host followed by
    non-executable device segments exactly when no embedded device segment
    was executable to begin with. -/
theorem merge_elfs_data_iff (lief : Lief) (hlief : lief.Lawful) (host_path : Path)
    (device_paths : List Path) (host : Binary) (devices : List Binary)
    (hhost : lief.parse host_path = some host)
    (hdevs : device_paths.map lief.parse = devices.map some) :
    ∃ merged, merge_elfs lief host_path device_paths = some merged ∧
      (MergedImage lief host devices merged ↔
        ∀ device ∈ devices, ∀ seg ∈ embedded device, seg.flags &&& FLAGS_X = 0) := by
  obtain ⟨merged, hmerged, hloads⟩ :=
    foldlM_embed_loads hlief device_paths devices hdevs (removeReserved lief host)
  rw [removeReserved_loads hlief] at hloads
  refine ⟨merged, by simp only [merge_elfs, hhost, Option.bind_eq_bind, Option.bind_some, hmerged],
    ?_⟩
  have hall : (∀ device ∈ devices, ∀ seg ∈ embedded device, seg.flags &&& FLAGS_X = 0) ↔
      ∀ seg ∈ devices.flatMap embedded, seg.flags &&& FLAGS_X = 0 := by
    simp only [List.mem_flatMap]
    exact ⟨fun h seg hseg => hseg.elim fun d hd => h d hd.1 seg hd.2,
      fun h d hd seg hseg => h seg ⟨d, hd, hseg⟩⟩
  have hplaced : List.Forall₂ IsDataOf (devices.flatMap embedded)
      ((devices.flatMap embedded).map Segment.placed) ↔
      ∀ seg ∈ devices.flatMap embedded, seg.flags &&& FLAGS_X = 0 := by
    rw [List.forall₂_map_right_iff, List.forall₂_same]
    exact forall₂_congr fun seg _ => isDataOf_placed_iff seg
  rw [hall, ← hplaced]
  constructor
  · intro h
    -- what follows the host's segments is determined
    obtain ⟨data, hdata, hdataOf⟩ := h
    rw [hloads] at hdata
    rw [List.append_cancel_left hdata]
    exact hdataOf
  · intro h
    exact ⟨_, hloads, h⟩

/-- A library that keeps its segments in a list: adding puts one at the
    end, and removing a section takes the LOAD segments within it along. -/
def listLief (parse : Path → Option Binary) : Lief where
  parse := parse
  add := fun b seg base =>
    { b with segments := b.segments ++ [{ seg with virtual_address := base }] }
  addSection := fun b sec => { b with sections := b.sections ++ [sec] }
  remove := fun b sec =>
    { sections := b.sections.erase sec
      segments := b.segments.filter (fun seg => !(seg.type = .LOAD && seg.Inside sec)) }
  backs := fun sec seg => seg.Inside sec

theorem listLief_lawful (parse : Path → Option Binary) : (listLief parse).Lawful where
  backs_inside := by
    intro sec seg hbacks
    exact of_decide_eq_true hbacks
  add_loads := by
    intro b seg base hload
    simp [listLief, Binary.loads, Binary.loadSegments, Segment.toLoad, hload]
  addSection_loads := by
    intro b sec
    rfl
  remove_loads := by
    intro b sec
    unfold listLief Binary.loads Binary.loadSegments
    rw [List.filter_filter, List.filter_filter]
    congr 2
    funext seg
    by_cases hload : seg.type = .LOAD
    · simp [hload]
    · simp [hload]

/-- A LOAD segment with as many addresses as bytes. -/
def loadAt (flags : BitVec 32) (address : Nat) (content : List UInt8) : Segment where
  type := .LOAD
  flags := flags
  virtual_address := address
  physical_address := address
  virtual_size := content.length
  content := content

/-- A host with its code, a segment for the `.reserved` section that holds no
    byte, and a segment that is not loaded. -/
def reservingHost : Binary where
  sections := [⟨".text".toList, 4, 0x20000000⟩, ⟨".reserved".toList, 0x1000, 0x48000000⟩]
  segments :=
    [loadAt 5 0x20000000 [0x13, 0, 0, 0],
      { loadAt 6 0x48000000 [] with virtual_size := 0x1000 },
      { loadAt 4 0x20000000 [0x13] with type := .other 0x6474e551 }]

/-- The image of a device: constants, data that is loaded elsewhere than it
    runs, and a segment without bytes. -/
def dataDevice (base : Nat) : Binary where
  sections := [⟨".rodata".toList, 2, base⟩, ⟨".common".toList, 4, 0x48000f00⟩]
  segments :=
    [loadAt 4 base [1, 2],
      { loadAt 6 0x10000000 [3, 4, 5] with physical_address := base + 0x100 },
      { loadAt 6 0x10000100 [] with virtual_size := 64 }]

/-- The files of a host with two devices. -/
def twoDevices (path : Path) : Option Binary :=
  if path = "host.elf".toList then some reservingHost
  else if path = "c0.elf".toList then some (dataDevice 0x48000000)
  else some (dataDevice 0x48000800)

/-- Merging two devices without code gives the documented image. -/
theorem dataDevice_merged :
    ∃ merged, merge_elfs (listLief twoDevices) "host.elf".toList
        ["c0.elf".toList, "c1.elf".toList] =
        some merged ∧
      MergedImage (listLief twoDevices) reservingHost [dataDevice 0x48000000, dataDevice 0x48000800]
        merged := by
  obtain ⟨merged, hmerged, hiff⟩ := merge_elfs_data_iff (listLief twoDevices) (listLief_lawful _)
    "host.elf".toList ["c0.elf".toList, "c1.elf".toList] reservingHost
    [dataDevice 0x48000000, dataDevice 0x48000800] (by decide) (by decide)
  exact ⟨merged, hmerged, hiff.mpr (by decide)⟩

/-- A device with code alone. -/
def codeDevice : Binary := { sections := [], segments := [loadAt 5 0x48000000 [0x13, 0, 0, 0]] }

/-- The code of a device stays executable. -/
theorem codeDevice_stays_executable :
    ¬ ∀ (lief : Lief) (host_path : Path) (device_paths : List Path) (host merged : Binary)
        (devices : List Binary), lief.Lawful → lief.parse host_path = some host →
        device_paths.map lief.parse = devices.map some →
        merge_elfs lief host_path device_paths = some merged →
        MergedImage lief host devices merged := by
  intro hall
  obtain ⟨data, hdata, hdataOf⟩ := hall (listLief fun _ => some codeDevice) ['h'] [['d']]
    codeDevice _ [codeDevice] (listLief_lawful _) rfl rfl rfl
  let code := loadAt 5 0x48000000 [0x13, 0, 0, 0]
  have hdata' : [code.toLoad] ++ [code.placed] = [code.toLoad] ++ data := hdata
  have hlast : data = [code.placed] := (List.append_cancel_left hdata').symm
  rw [hlast] at hdataOf
  cases hdataOf with
  | cons h _ => exact absurd h.not_executable (by decide)

end MergeElf
