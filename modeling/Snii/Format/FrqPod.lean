import Snii.Encoding.Crc32c
import Snii.Encoding.Pfor
import Snii.Encoding.Zstd
import Snii.Lib.Chunks

/-!
# Doc-delta and frequency regions

`frq_pod.cpp`.  A window's docids are stored as differences from the previous
window's last docid on, its frequencies as they are; both as runs of packed
values, raw or compressed.  A region has no header: its mode, lengths and
checksum (`FrqRegionMeta`) live elsewhere, and `Region` says that they describe
the bytes.
-/

namespace Snii.Format.FrqPod

open Snii.Lib.ByteReader Snii.Lib.Chunks Snii.Common
open Snii.Encoding.ByteSource Snii.Encoding.Pfor Snii.Encoding.Crc32c Snii.Encoding.Compression

/-- The length of a packed run. -/
def kFrqBaseUnit : Nat := 256

/-- Shorter regions are not worth compressing. -/
def kAutoZstdMinBytes : Nat := 512

/-- The level where the caller leaves it open. -/
def kDefaultZstdLevel : Int := 3

/-- The cap on an inflated region. -/
def kMaxRegionUncompBytes : Nat := 256 * 1024 * 1024

/-- The cap on the documents of a window. -/
def kMaxWindowDocs : Nat := 2 ^ 24

/-! ## Runs -/

/-- Values cut into runs, each packed by its own width. -/
def encodePforRuns (values : List Nat) : Bytes := (chunks kFrqBaseUnit values).flatMap pforEncode

/-- The lengths of the runs of `n` values. -/
def runLengths (n : Nat) : List Nat :=
  (List.range ((n + kFrqBaseUnit - 1) / kFrqBaseUnit)).map fun i =>
    min kFrqBaseUnit (n - i * kFrqBaseUnit)

/-- As many runs as `n` values need. -/
def decodePforRuns (n : Nat) : Source (List Nat) := do
  let runs ← readEach pforDecode (runLengths n)
  pure runs.flatten

theorem reads_encodePforRuns {values : List Nat} (h : ∀ v ∈ values, v < 2 ^ 32) :
    Reads (decodePforRuns values.length) (encodePforRuns values) values := by
  have hruns : Reads (readEach pforDecode ((chunks kFrqBaseUnit values).map List.length))
      ((chunks kFrqBaseUnit values).flatMap pforEncode) (chunks kFrqBaseUnit values) := by
    apply Reads.readEach
    intro run hrun
    have hlen := (length_mem_chunks (show 0 < kFrqBaseUnit by decide) hrun).2
    refine reads_pforEncode (fun v hv => h v (mem_of_mem_chunks hrun hv)) ?_
    exact Nat.lt_of_le_of_lt hlen (by decide)
  rw [map_length_chunks] at hruns
  refine hruns.bind_nil ?_
  rw [flatten_chunks (by decide)]
  exact Reads.pure values

theorem length_encodePforRuns_le {values : List Nat} (h : ∀ v ∈ values, v < 2 ^ 32) :
    (encodePforRuns values).length ≤ 36 * values.length := by
  have hruns : ∀ run ∈ chunks kFrqBaseUnit values, (pforEncode run).length ≤ 36 * run.length := by
    intro run hrun
    have hpos := (length_mem_chunks (show 0 < kFrqBaseUnit by decide) hrun).1
    have hle := length_pforEncode_le fun v hv => h v (mem_of_mem_chunks hrun hv)
    omega
  have hflat := congrArg List.length (flatten_chunks (show 0 < kFrqBaseUnit by decide) values)
  rw [encodePforRuns, ← hflat]
  generalize chunks kFrqBaseUnit values = runs at hruns
  induction runs with
  | nil => exact Nat.le_refl 0
  | cons run runs ih =>
      have hrun := hruns run List.mem_cons_self
      have hrest := ih fun r hr => hruns r (List.mem_cons_of_mem _ hr)
      rw [List.flatMap_cons, List.length_append, List.flatten_cons, List.length_append]
      omega

/-! ## Regions -/

/-- How a region is stored, and what its bytes must sum to. -/
structure FrqRegionMeta where
  zstd : Bool := false
  uncompLen : Nat := 0
  diskLen : Nat := 0
  crc : Nat := 0
  verifyCrc : Bool := true
deriving DecidableEq

/-- Docids ascend, and the first is not below the base. -/
def validateDocs (docs : List Nat) (winBase : Nat) : Result Unit :=
  match docs with
  | [] => .ok ()
  | d :: _ =>
      if d < winBase then .error (.invalidArgument "frq: first docid below win_base")
      else if ¬ docs.IsChain (· ≤ ·) then
        .error (.invalidArgument "frq: docids must be ascending")
      else .ok ()

/-- `0` forces raw, a positive level forces compression, a negative one decides
by size. -/
def shouldCompress (level : Int) (plainLen : Nat) : Bool :=
  if level = 0 then false else if level > 0 then true else plainLen ≥ kAutoZstdMinBytes

/-- A region compressed or not, with its metadata. -/
def emitRegion (z : Zstd) (plain : Bytes) (level : Int) : Result (Bytes × FrqRegionMeta) :=
  if shouldCompress level plain.length then do
    let disk ← zstdCompress z plain (if level > 0 then level else kDefaultZstdLevel)
    pure (disk, { zstd := true, uncompLen := plain.length, diskLen := disk.length
                  crc := crc32c disk })
  else
    .ok (plain, { zstd := false, uncompLen := plain.length, diskLen := plain.length
                  crc := crc32c plain })

/-- A region's plain bytes, after the checks of length and checksum. -/
def openRegion (z : Zstd) (disk : Bytes) (m : FrqRegionMeta) : Result Bytes :=
  if disk.length ≠ m.diskLen then .error (.corruption "frq: region slice length mismatch")
  else if m.uncompLen > kMaxRegionUncompBytes then
    .error (.corruption "frq: region uncomp_len exceeds sane cap")
  else if m.verifyCrc ∧ crc32c disk ≠ m.crc then .error (.corruption "frq: region crc mismatch")
  else if m.zstd then zstdDecompress z disk m.uncompLen
  else if m.uncompLen ≠ m.diskLen then
    .error (.corruption "frq: raw region length inconsistent")
  else .ok disk

/-- Differences of consecutive docids, from the base on. -/
def docDeltas : Nat → List Nat → List Nat
  | _, [] => []
  | prev, d :: docs => (d - prev) :: docDeltas d docs

/-- The docids of a window as differences from its base. -/
def buildDdRegion (z : Zstd) (docids : List Nat) (winBase : Nat) (level : Int) :
    Result (Bytes × FrqRegionMeta) := do
  validateDocs docids winBase
  emitRegion z (putVarint32 docids.length ++ encodePforRuns (docDeltas winBase docids)) level

/-- The freqs of a window. -/
def buildFreqRegion (z : Zstd) (freqs : List Nat) (level : Int) :
    Result (Bytes × FrqRegionMeta) :=
  emitRegion z (encodePforRuns freqs) level

/-- Running sums in 64 bits, each kept as 32. -/
def sumDeltas : Nat → List Nat → List Nat
  | _, [] => []
  | cur, dd :: dds =>
      let cur := (cur + dd) % 2 ^ 64
      cur % 2 ^ 32 :: sumDeltas cur dds

/-- The document count and the differences of a dd region. -/
def readDd : Source (List Nat) := do
  let n ← getVarint32
  if n > kMaxWindowDocs then throw (.corruption "frq: doc count exceeds sane cap")
  else decodePforRuns n

/-- The docids of a window. -/
def decodeDdRegion (z : Zstd) (disk : Bytes) (m : FrqRegionMeta) (winBase : Nat) :
    Result (List Nat) := do
  let plain ← openRegion z disk m
  let dd ← parseAll readDd "frq: trailing bytes after dd region payload" plain
  pure (sumDeltas winBase dd)

/-- The freqs of a window of known size. -/
def decodeFreqRegion (z : Zstd) (disk : Bytes) (m : FrqRegionMeta) (docCount : Nat) :
    Result (List Nat) := do
  let plain ← openRegion z disk m
  if docCount = 0 then
    if m.uncompLen ≠ 0 then .error (.corruption "frq: empty freq region expected") else .ok []
  else parseAll (decodePforRuns docCount) "frq: trailing bytes after freq region payload" plain

/-! ## Described regions -/

/-- The metadata describe these bytes, which stand for this plaintext. -/
structure Region (z : Zstd) (m : FrqRegionMeta) (disk plain : Bytes) : Prop where
  diskLen : m.diskLen = disk.length
  uncompLen : m.uncompLen = plain.length
  crc : m.verifyCrc = true → m.crc = crc32c disk
  payload : if m.zstd then zstdDecompress z disk plain.length = .ok plain else disk = plain

theorem openRegion_region {z : Zstd} {m : FrqRegionMeta} {disk plain : Bytes}
    (h : Region z m disk plain) (hcap : plain.length ≤ kMaxRegionUncompBytes) :
    openRegion z disk m = .ok plain := by
  have hpay := h.payload
  have hcrc : ¬ (m.verifyCrc = true ∧ crc32c disk ≠ m.crc) := by
    rintro ⟨hv, hne⟩
    exact hne (h.crc hv).symm
  rw [openRegion, if_neg (by rw [h.diskLen]; simp), if_neg (by rw [h.uncompLen]; omega),
    if_neg hcrc]
  by_cases hz : m.zstd = true
  · rw [if_pos hz] at hpay
    rw [if_pos hz, h.uncompLen, hpay]
  · rw [if_neg hz] at hpay
    rw [if_neg hz, h.uncompLen, h.diskLen, hpay]
    simp

/-- **Every level** writes a region that its metadata describe. -/
theorem emitRegion_region {z : Zstd} (hz : z.Lossless) (plain : Bytes) (level : Int) :
    ∃ disk m, emitRegion z plain level = .ok (disk, m) ∧ Region z m disk plain ∧
      m.verifyCrc = true ∧ disk.length ≤ plain.length + plain.length / 256 + 64 := by
  rw [emitRegion]
  by_cases hc : shouldCompress level plain.length = true
  · obtain ⟨disk, hcomp, hlen, hdec⟩ :=
      hz.compress_ok (if level > 0 then level else kDefaultZstdLevel) plain
    rw [if_pos hc, hcomp, ok_bind]
    exact ⟨disk, _, rfl, ⟨rfl, rfl, fun _ => rfl, by simpa using hdec⟩, rfl, hlen⟩
  · rw [if_neg hc]
    exact ⟨plain, _, rfl, ⟨rfl, rfl, fun _ => rfl, by simp⟩, rfl, by omega⟩

/-- The raw level copies. -/
theorem emitRegion_raw (z : Zstd) (plain : Bytes) :
    emitRegion z plain 0 = .ok (plain, { zstd := false, uncompLen := plain.length
                                         diskLen := plain.length, crc := crc32c plain }) := by
  rw [emitRegion, if_neg (by simp [shouldCompress])]

/-! ## Docids -/

/-- The docids a dd region holds: ascending from the base on, in 32 bits. -/
structure DocsFrom (winBase : Nat) (docs : List Nat) : Prop where
  ascending : (winBase :: docs).IsChain (· ≤ ·)
  inRange : ∀ d ∈ docs, d < 2 ^ 32

theorem validateDocs_iff (docs : List Nat) (winBase : Nat) :
    validateDocs docs winBase = .ok () ↔ (winBase :: docs).IsChain (· ≤ ·) := by
  cases docs with
  | nil => simp [validateDocs]
  | cons d docs =>
      rw [validateDocs, List.isChain_cons_cons]
      by_cases hd : d < winBase
      · rw [if_pos hd]
        simp only [reduceCtorEq, false_iff]
        exact fun h => absurd h.1 (by omega)
      · rw [if_neg hd]
        by_cases hc : (d :: docs).IsChain (· ≤ ·)
        · rw [if_neg (not_not.mpr hc)]
          simp only [true_iff]
          exact ⟨by omega, hc⟩
        · rw [if_pos hc]
          simp only [reduceCtorEq, false_iff]
          exact fun h => hc h.2

@[simp] theorem length_docDeltas (winBase : Nat) (docs : List Nat) :
    (docDeltas winBase docs).length = docs.length := by
  induction docs generalizing winBase with
  | nil => rfl
  | cons d docs ih => simp [docDeltas, ih]

theorem docDeltas_lt {winBase : Nat} {docs : List Nat} (h : ∀ d ∈ docs, d < 2 ^ 32) :
    ∀ x ∈ docDeltas winBase docs, x < 2 ^ 32 := by
  induction docs generalizing winBase with
  | nil => simp [docDeltas]
  | cons d docs ih =>
      intro x hx
      have hd := h d List.mem_cons_self
      rcases List.mem_cons.mp hx with rfl | hx
      · omega
      · exact ih (fun y hy => h y (List.mem_cons_of_mem _ hy)) x hx

/-- Summing the differences gives the docids back. -/
theorem sumDeltas_docDeltas {winBase : Nat} {docs : List Nat} (h : DocsFrom winBase docs) :
    sumDeltas winBase (docDeltas winBase docs) = docs := by
  induction docs generalizing winBase with
  | nil => rfl
  | cons d docs ih =>
      have hd := h.inRange d List.mem_cons_self
      have hasc := List.isChain_cons_cons.mp h.ascending
      rw [docDeltas, sumDeltas]
      simp only [Nat.add_sub_cancel' hasc.1]
      rw [Nat.mod_eq_of_lt (show d < 2 ^ 64 by omega), Nat.mod_eq_of_lt hd,
        ih ⟨hasc.2, fun y hy => h.inRange y (List.mem_cons_of_mem _ hy)⟩]

/-- The plaintext of a dd region. -/
def ddPlain (winBase : Nat) (docs : List Nat) : Bytes :=
  putVarint32 docs.length ++ encodePforRuns (docDeltas winBase docs)

theorem reads_ddPlain {winBase : Nat} {docs : List Nat} (h : DocsFrom winBase docs)
    (hlen : docs.length ≤ kMaxWindowDocs) :
    Reads readDd (ddPlain winBase docs) (docDeltas winBase docs) := by
  have hcap : kMaxWindowDocs < 2 ^ 32 := by decide
  have hruns := reads_encodePforRuns (@docDeltas_lt winBase _ h.inRange)
  rw [length_docDeltas] at hruns
  exact (reads_getVarint32 (by omega)).bind (Reads.if_neg (by omega) hruns)

theorem length_ddPlain_le {winBase : Nat} {docs : List Nat} (h : ∀ d ∈ docs, d < 2 ^ 32) :
    (ddPlain winBase docs).length ≤ 10 + 36 * docs.length := by
  have h1 := length_putVarint32_le docs.length
  have h2 := length_encodePforRuns_le (@docDeltas_lt winBase _ h)
  rw [length_docDeltas] at h2
  rw [ddPlain, List.length_append]
  omega

theorem buildDdRegion_eq {z : Zstd} {winBase : Nat} {docs : List Nat}
    (h : DocsFrom winBase docs) (level : Int) :
    buildDdRegion z docs winBase level = emitRegion z (ddPlain winBase docs) level := by
  rw [buildDdRegion, (validateDocs_iff docs winBase).mpr h.ascending, ok_bind, ddPlain]

/-- **A dd region decodes** to the docids it was made of. -/
theorem decodeDdRegion_region {z : Zstd} {m : FrqRegionMeta} {disk : Bytes} {winBase : Nat}
    {docs : List Nat} (h : DocsFrom winBase docs) (hlen : docs.length ≤ kMaxWindowDocs)
    (hreg : Region z m disk (ddPlain winBase docs))
    (hcap : (ddPlain winBase docs).length ≤ kMaxRegionUncompBytes) :
    decodeDdRegion z disk m winBase = .ok docs := by
  rw [decodeDdRegion, openRegion_region hreg hcap, ok_bind,
    parseAll_of_reads (reads_ddPlain h hlen), ok_bind, sumDeltas_docDeltas h]
  rfl

/-- **A freq region decodes** to the frequencies it was made of. -/
theorem decodeFreqRegion_region {z : Zstd} {m : FrqRegionMeta} {disk : Bytes} {freqs : List Nat}
    (h : ∀ f ∈ freqs, f < 2 ^ 32) (hreg : Region z m disk (encodePforRuns freqs))
    (hcap : (encodePforRuns freqs).length ≤ kMaxRegionUncompBytes) :
    decodeFreqRegion z disk m freqs.length = .ok freqs := by
  rw [decodeFreqRegion, openRegion_region hreg hcap, ok_bind]
  cases freqs with
  | nil =>
      have : m.uncompLen = 0 := by
        rw [hreg.uncompLen, encodePforRuns, chunks_nil (by decide)]
        rfl
      simp [this]
  | cons f freqs =>
      rw [if_neg (by simp)]
      exact parseAll_of_reads (reads_encodePforRuns h) _

end Snii.Format.FrqPod
