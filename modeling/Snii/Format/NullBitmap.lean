import Mathlib.Data.Finset.Card
import Mathlib.Data.List.Sort
import Snii.Format.BurstDetection

/-!
# Null documents of an index

`null_bitmap.cpp`: the documents without a value as a Roaring bitmap, framed behind the
number of documents.  The Roaring library is a parameter.  A finished section is read
back set for set, a truncated one and one with a burst in its payload or checksum are
refused, and no byte string brings the reader to the call that would end the process
(`nullBitmap_sound`).
-/

namespace Snii.Format.NullBitmap

open Snii.Lib.ByteReader Snii.Common
open Snii.Encoding.ByteSource Snii.Encoding.Crc32c Snii.Encoding.SectionFramer
open Snii.Format.BurstDetection

/-! ## The library -/

/-- The calls of the Roaring library.  `readSafe` ends the process where it cannot read
(`none`); `deserializeSize` is the probe that does not, zero where no bitmap stands. -/
structure Roaring where
  Bitmap : Type
  empty : Bitmap
  add : Bitmap → Nat → Bitmap
  contains : Bitmap → Nat → Bool
  cardinality : Bitmap → Nat
  write : Bitmap → Bytes
  deserializeSize : Bytes → Nat
  readSafe : Bytes → Option Bitmap

variable {lib : Roaring}

/-- A bitmap is a set of 32-bit numbers, and what passes the probe whole can be read. -/
structure Roaring.IsSet (lib : Roaring) (elements : lib.Bitmap → Finset Nat) : Prop where
  empty : elements lib.empty = ∅
  add : ∀ b d, d < 2 ^ 32 → elements (lib.add b d) = insert d (elements b)
  contains : ∀ b d, d < 2 ^ 32 → (lib.contains b d = true ↔ d ∈ elements b)
  cardinality : ∀ b, lib.cardinality b = (elements b).card
  probed : ∀ bs, bs ≠ [] → lib.deserializeSize bs = bs.length → ∃ b, lib.readSafe bs = some b

/-- The portable form of a bitmap fits in memory, is not empty and reads back. -/
structure Roaring.Portable (lib : Roaring) (elements : lib.Bitmap → Finset Nat)
    (b : lib.Bitmap) : Prop where
  fits : (lib.write b).length < 2 ^ 63
  nonempty : lib.write b ≠ []
  size : lib.deserializeSize (lib.write b) = (lib.write b).length
  reads : ∃ b', lib.readSafe (lib.write b) = some b' ∧ elements b' = elements b

/-! ## Writer and reader -/

/-- The type of its frame. -/
def kNullBitmapSectionType : Nat := 0x20

/-- A bitmap of the library. -/
structure NullBitmapWriter (lib : Roaring) where
  bitmap : lib.Bitmap

/-- No nulls. -/
def NullBitmapWriter.new (lib : Roaring) : NullBitmapWriter lib where
  bitmap := lib.empty

/-- One null document. -/
def NullBitmapWriter.addNull (w : NullBitmapWriter lib) (docid : Nat) : NullBitmapWriter lib where
  bitmap := lib.add w.bitmap docid

/-- In 32 bits. -/
def NullBitmapWriter.nullCount (w : NullBitmapWriter lib) : Nat :=
  lib.cardinality w.bitmap % 2 ^ 32

/-- Document count, then the bitmap behind its length. -/
def nullBitmapPayload (docCount : Nat) (roaring : Bytes) : Bytes :=
  putVarint64 docCount ++ putVarint64 roaring.length ++ roaring

/-- The payload in a frame of its type. -/
def NullBitmapWriter.finish (w : NullBitmapWriter lib) (docCount : Nat) : Bytes :=
  writeSection kNullBitmapSectionType (nullBitmapPayload docCount (lib.write w.bitmap))

/-- The bitmap as read. -/
structure NullBitmapReader (lib : Roaring) where
  bitmap : lib.Bitmap
  docCount : Nat

/-- The checks up to the library's read: the number of documents and the bytes to read. -/
def probeNullBitmap (lib : Roaring) (framed : Bytes) : Result (Nat × Bytes) := do
  let (sec, _) ← readSection.run framed
  let (docCount, rest) ← getVarint64.run sec.payload
  if docCount > 4294967295 then .error (.corruption "null bitmap doc_count overflows uint32")
  else
    let (roaringSize, rest) ← getVarint64.run rest
    if roaringSize > rest.length then
      .error (.corruption "null bitmap roaring_size exceeds payload")
    else
      let (roaringBytes, _) ← (getBytes roaringSize).run rest
      if lib.deserializeSize roaringBytes = 0 ∨
          lib.deserializeSize roaringBytes ≠ roaringSize then
        .error (.corruption "null bitmap: malformed roaring container")
      else .ok (docCount, roaringBytes)

/-- No result where the library ends the process. -/
def NullBitmapReader.open (lib : Roaring) (framed : Bytes) :
    Option (Result (NullBitmapReader lib)) :=
  match probeNullBitmap lib framed with
  | .error s => some (.error s)
  | .ok (docCount, roaringBytes) => (lib.readSafe roaringBytes).map fun b =>
      .ok { bitmap := b, docCount := docCount }

/-- Whether a document is null. -/
def NullBitmapReader.isNull (r : NullBitmapReader lib) (docid : Nat) : Bool :=
  lib.contains r.bitmap docid

/-- In 32 bits. -/
def NullBitmapReader.nullCount (r : NullBitmapReader lib) : Nat :=
  lib.cardinality r.bitmap % 2 ^ 32

/-- The writer behind one call for each null document. -/
def writerOf (lib : Roaring) (docids : List Nat) : NullBitmapWriter lib :=
  docids.foldl NullBitmapWriter.addNull (NullBitmapWriter.new lib)

/-! ## Sets -/

variable {elements : lib.Bitmap → Finset Nat}

theorem elements_foldl (hlib : lib.IsSet elements) {docids : List Nat}
    (hids : ∀ d ∈ docids, d < 2 ^ 32) (w : NullBitmapWriter lib) :
    elements (docids.foldl NullBitmapWriter.addNull w).bitmap =
      elements w.bitmap ∪ docids.toFinset := by
  induction docids generalizing w with
  | nil => simp
  | cons d docids ih =>
      have hadd : elements (w.addNull d).bitmap = insert d (elements w.bitmap) :=
        hlib.add w.bitmap d (hids d List.mem_cons_self)
      rw [List.foldl_cons, ih (fun e he => hids e (List.mem_cons_of_mem d he)), hadd]
      simp only [List.toFinset_cons, Finset.insert_union, Finset.union_insert]

theorem elements_writerOf (hlib : lib.IsSet elements) {docids : List Nat}
    (hids : ∀ d ∈ docids, d < 2 ^ 32) :
    elements (writerOf lib docids).bitmap = docids.toFinset := by
  rw [writerOf, elements_foldl hlib hids, NullBitmapWriter.new, hlib.empty, Finset.empty_union]

/-! ## Round trip -/

theorem length_nullBitmapPayload (docCount : Nat) {roaring : Bytes}
    (h : roaring.length < 2 ^ 63) : (nullBitmapPayload docCount roaring).length < 2 ^ 64 := by
  have hdocs := length_putVarint64_le docCount
  have hsize := length_putVarint64_le roaring.length
  simp only [nullBitmapPayload, List.length_append]
  omega

theorem probeNullBitmap_finish {b : lib.Bitmap} (hport : lib.Portable elements b)
    {docCount : Nat} (hcount : docCount < 2 ^ 32) (behind : Bytes) :
    probeNullBitmap lib
      (writeSection kNullBitmapSectionType (nullBitmapPayload docCount (lib.write b)) ++ behind) =
        .ok (docCount, lib.write b) := by
  have hsec := reads_section (show kNullBitmapSectionType < 256 by decide)
    (length_nullBitmapPayload docCount hport.fits) behind
  have hdocs := reads_getVarint64 (show docCount < 2 ^ 64 by omega)
    (putVarint64 (lib.write b).length ++ lib.write b)
  have hfits := hport.fits
  have hsize := reads_getVarint64 (show (lib.write b).length < 2 ^ 64 by omega) (lib.write b)
  have hbytes := reads_getBytes (lib.write b) []
  have hzero : lib.deserializeSize (lib.write b) ≠ 0 := by
    rw [hport.size]
    exact List.length_pos_iff.mpr hport.nonempty |>.ne'
  rw [List.append_nil] at hbytes
  rw [probeNullBitmap, hsec, ok_bind]
  simp only
  rw [nullBitmapPayload, List.append_assoc, hdocs, ok_bind]
  simp only
  rw [if_neg (by omega), hsize, ok_bind]
  simp only
  rw [if_neg (Nat.lt_irrefl _), hbytes, ok_bind]
  simp only
  rw [if_neg (not_or.mpr ⟨hzero, not_not.mpr hport.size⟩)]

/-! ## Arbitrary bytes -/

theorem probeNullBitmap_ne_outOfBounds (lib : Roaring) (framed : Bytes) :
    probeNullBitmap lib framed ≠ .error .outOfBounds := by
  rw [probeNullBitmap]
  apply bind_ne_error (avoids_readSection framed)
  rintro ⟨sec, behind⟩ -
  apply bind_ne_error (avoids_getVarint64 sec.payload)
  rintro ⟨docCount, rest⟩ -
  simp only
  split
  · simp
  · apply bind_ne_error (avoids_getVarint64 rest)
    rintro ⟨roaringSize, rest'⟩ -
    simp only
    split
    · simp
    · apply bind_ne_error (avoids_getBytes roaringSize rest')
      rintro ⟨roaringBytes, unread⟩ -
      simp only
      split <;> simp

/-- What passes the checks, the library can read. -/
theorem readSafe_of_probe (hlib : lib.IsSet elements) {framed : Bytes} {checked : Nat × Bytes}
    (h : probeNullBitmap lib framed = .ok checked) : ∃ b, lib.readSafe checked.2 = some b := by
  rw [probeNullBitmap] at h
  obtain ⟨⟨sec, behind⟩, -, h1⟩ := bind_eq_ok h
  obtain ⟨⟨docCount, rest⟩, -, h2⟩ := bind_eq_ok h1
  simp only at h2
  split at h2
  · cases h2
  · obtain ⟨⟨roaringSize, rest'⟩, -, h3⟩ := bind_eq_ok h2
    simp only at h3
    split at h3
    · cases h3
    · obtain ⟨⟨roaringBytes, unread⟩, hbytes, h4⟩ := bind_eq_ok h3
      simp only at h4
      split at h4
      · cases h4
      · rename_i hprobe
        cases h4
        obtain ⟨hzero, hsize⟩ := not_or.mp hprobe
        have hlen := (getBytes_inv hbytes).2
        have hwhole : lib.deserializeSize roaringBytes = roaringBytes.length :=
          (not_not.mp hsize).trans hlen.symm
        apply hlib.probed roaringBytes _ hwhole
        intro hnil
        apply hzero
        rw [hwhole, hnil, List.length_nil]

theorem open_ends (hlib : lib.IsSet elements) (framed : Bytes) :
    ∃ result, NullBitmapReader.open lib framed = some result ∧ result ≠ .error .outOfBounds := by
  rw [NullBitmapReader.open]
  cases hprobe : probeNullBitmap lib framed with
  | error s =>
      refine ⟨_, rfl, fun heq => probeNullBitmap_ne_outOfBounds lib framed ?_⟩
      rw [hprobe, Except.error.inj heq]
  | ok checked =>
      obtain ⟨b, hb⟩ := readSafe_of_probe hlib hprobe
      refine ⟨.ok { bitmap := b, docCount := checked.1 }, ?_, fun heq => by cases heq⟩
      simp only [hb, Option.map_some]

/-! ## Changed sections -/

/-- A reader that looks no further than it reads does not read a proper prefix. -/
theorem run_take_ne_ok {ε α : Type} {p : Reader ε α} (hp : Prefixed p) {bs : Bytes} {x : α}
    (h : Reads p bs x) {n : Nat} (hn : n < bs.length) (y : α × Bytes) :
    p.run (bs.take n) ≠ .ok y := by
  intro hrun
  obtain ⟨used, htake, hreads⟩ := hp _ y.1 y.2 hrun
  have hwhole : bs ++ [] = used ++ (y.2 ++ bs.drop n) := by
    rw [List.append_nil, ← List.append_assoc, ← htake, List.take_append_drop]
  have hboth := h []
  rw [hwhole, hreads] at hboth
  have hrest : y.2 ++ bs.drop n = [] := congrArg Prod.snd (Except.ok.inj hboth)
  have hlen := congrArg List.length (List.append_eq_nil_iff.mp hrest).2
  rw [List.length_drop, List.length_nil] at hlen
  omega

theorem reads_fourBytes {bs : Bytes} (h : bs.length = 4) : Reads getFixed32 bs (leValue bs) := by
  intro rest
  show (if (bs ++ rest).length < 4 then _ else _) = _
  rw [if_neg (by rw [List.length_append]; omega), List.take_left' h, List.drop_left' h]

theorem prefixed_readSection : Prefixed readSection := by
  intro bs sec rest h
  obtain ⟨frame, hbs, hframe⟩ := frame_of_run h
  exact ⟨frame, hbs, reads_frame hframe⟩

/-- The frame of a section with the length field as it was written. -/
def KeepsLength (payload data : Bytes) : Prop :=
  ∃ type tail, type.length = 1 ∧ data = type ++ (putVarint64 payload.length ++ tail)

theorem Burst.length_eq {data data' : Bytes} (h : Burst data data') :
    data'.length = data.length := by
  obtain ⟨before, x, y, after, rfl, rfl, hlen, -, -⟩ := h
  simp only [List.length_append, hlen]

theorem readSection_burst {type : Nat} {payload data : Bytes}
    (hp : payload.length < 2 ^ 64) (hburst : Burst (writeSection type payload) data)
    (hkeeps : KeepsLength payload data) (behind : Bytes) :
    readSection.run (data ++ behind) = .error (.corruption "section crc mismatch") := by
  have hsealed : Sealed (writeSection type payload) := by
    refine ⟨_, _, rfl, length_putFixed32 _, ?_⟩
    rw [putFixed32, leValue_leBytes (crc32c_lt _)]
  have hbroken := hburst.not_sealed hsealed
  have hlength := Burst.length_eq hburst
  obtain ⟨type', tail, htype, rfl⟩ := hkeeps
  have htail : tail.length = payload.length + 4 := by
    simp only [writeSection, frameBody, List.length_append, length_putU8, length_putFixed32,
      htype] at hlength
    omega
  obtain ⟨b, rfl⟩ := List.length_eq_one_iff.mp htype
  -- the payload and the checksum stand where they stood
  have hsplit := List.take_append_drop payload.length tail
  have hpayload : (tail.take payload.length).length = payload.length := by
    rw [List.length_take]
    omega
  have hcrc : (tail.drop payload.length).length = 4 := by
    rw [List.length_drop]
    omega
  generalize tail.take payload.length = payload' at hsplit hpayload
  generalize tail.drop payload.length = crc at hsplit hcrc
  subst hsplit
  have hgetU8 : Reads getU8 [b] b.toNat := fun rest => rfl
  have hlen := reads_getVarint64 hp
  have hgetBytes := reads_getBytes payload'
  rw [hpayload] at hgetBytes
  have hbody : Reads readFrameBody ([b] ++ (putVarint64 payload.length ++ payload'))
      { type := b.toNat, payload := payload' } :=
    hgetU8.bind (hlen.bind (hgetBytes.bind_nil (Reads.pure _)))
  have hne : crc32c ([b] ++ (putVarint64 payload.length ++ payload')) ≠ leValue crc := by
    intro heq
    apply hbroken
    refine ⟨[b] ++ (putVarint64 payload.length ++ payload'), crc, ?_, hcrc, heq⟩
    simp only [List.append_assoc]
  have hsplit : [b] ++ (putVarint64 payload.length ++ (payload' ++ crc)) ++ behind =
      [b] ++ (putVarint64 payload.length ++ payload') ++ (crc ++ behind) := by
    simp only [List.append_assoc]
  rw [hsplit, readSection, hbody.consumed.run_bind]
  simp only
  rw [(reads_fourBytes hcrc).run_bind, if_pos hne]
  rfl

/-- **The null bitmap.**  Of the calls of a session the finished section is read back, with
anything behind it, as the set of the documents named, repeats counted once; cut short
anywhere, or with up to four consecutive bytes changed apart from the length field, it is
refused.  No bytes at all end the process or are read beyond their end. -/
theorem nullBitmap_sound (hlib : lib.IsSet elements) {docids : List Nat} {docCount : Nat}
    (hids : ∀ d ∈ docids, d < 2 ^ 32) (hcount : docCount < 2 ^ 32)
    (hport : lib.Portable elements (writerOf lib docids).bitmap) :
    (∀ behind, ∃ r : NullBitmapReader lib,
      NullBitmapReader.open lib ((writerOf lib docids).finish docCount ++ behind) =
          some (.ok r) ∧
        r.docCount = docCount ∧ (∀ d < 2 ^ 32, r.isNull d = true ↔ d ∈ docids) ∧
        r.nullCount = docids.toFinset.card % 2 ^ 32 ∧
        (writerOf lib docids).nullCount = r.nullCount) ∧
      (∀ n < ((writerOf lib docids).finish docCount).length, ∃ s,
        NullBitmapReader.open lib (((writerOf lib docids).finish docCount).take n) =
          some (.error s)) ∧
      (∀ data, Burst ((writerOf lib docids).finish docCount) data →
        KeepsLength (nullBitmapPayload docCount (lib.write (writerOf lib docids).bitmap)) data →
        ∀ behind, NullBitmapReader.open lib (data ++ behind) =
          some (.error (.corruption "section crc mismatch"))) ∧
      ∀ framed, ∃ result, NullBitmapReader.open lib framed = some result ∧
        result ≠ .error .outOfBounds := by
  have hels := elements_writerOf hlib hids
  have hp := length_nullBitmapPayload docCount hport.fits
  refine ⟨fun behind => ?_, fun n hn => ?_, fun data hburst hkeeps behind => ?_,
    open_ends hlib⟩
  · obtain ⟨b, hb, hbels⟩ := hport.reads
    refine ⟨{ bitmap := b, docCount := docCount }, ?_, rfl, fun d hd => ?_, ?_, ?_⟩
    · rw [NullBitmapReader.open, NullBitmapWriter.finish,
        probeNullBitmap_finish hport hcount behind]
      simp only [hb, Option.map_some]
    · rw [NullBitmapReader.isNull, hlib.contains b d hd, hbels, hels, List.mem_toFinset]
    · rw [NullBitmapReader.nullCount, hlib.cardinality, hbels, hels]
    · rw [NullBitmapWriter.nullCount, NullBitmapReader.nullCount, hlib.cardinality,
        hlib.cardinality, hbels]
  · obtain ⟨result, hopen, -⟩ := open_ends hlib (((writerOf lib docids).finish docCount).take n)
    have hfail := run_take_ne_ok prefixed_readSection
      (reads_section (show kNullBitmapSectionType < 256 by decide) hp) hn
    cases hrun : readSection.run (((writerOf lib docids).finish docCount).take n) with
    | ok sec => exact absurd hrun (hfail sec)
    | error s =>
        refine ⟨s, ?_⟩
        rw [NullBitmapReader.open, probeNullBitmap, hrun]
        rfl
  · rw [NullBitmapReader.open, probeNullBitmap, readSection_burst hp hburst hkeeps behind]
    rfl

/-! ## One container -/

/-- The portable form of a bitmap below 2^16 of at most 4096 elements: a cookie, one array
container with its key, its size less one and its place, and the elements. -/
def arrayContainer : Source (List Nat) := do
  let cookie ← getFixed32
  let containers ← getFixed32
  let key ← getFixed16
  let last ← getFixed16
  let offset ← getFixed32
  if cookie = 12346 ∧ containers = 1 ∧ key = 0 ∧ offset = 16 then readN getFixed16 (last + 1)
  else throw (.corruption "container")

/-- The library on such bitmaps. -/
def oneContainer : Roaring where
  Bitmap := List Nat
  empty := []
  add := fun (b : List Nat) d => if d ∈ b then b else b.orderedInsert (· ≤ ·) d
  contains := fun (b : List Nat) d => decide (d ∈ b)
  cardinality := fun (b : List Nat) => b.dedup.length
  write := fun (b : List Nat) =>
    putFixed32 12346 ++ putFixed32 1 ++ putFixed16 0 ++ putFixed16 (b.length - 1) ++
      putFixed32 16 ++ b.flatMap putFixed16
  deserializeSize bs :=
    match arrayContainer.run bs with
    | .ok (_, rest) => bs.length - rest.length
    | .error _ => 0
  readSafe bs :=
    match arrayContainer.run bs with
    | .ok (b, _) => some b
    | .error _ => none

theorem oneContainer_isSet : oneContainer.IsSet (@List.toFinset Nat _) where
  empty := rfl
  add := fun (b : List Nat) d _ => by
    change (if d ∈ b then b else b.orderedInsert (· ≤ ·) d).toFinset = _
    split
    · rename_i hmem
      rw [Finset.insert_eq_of_mem (List.mem_toFinset.mpr hmem)]
    · ext e
      simp only [List.mem_toFinset, List.mem_orderedInsert, Finset.mem_insert]
  contains := fun (b : List Nat) d _ => decide_eq_true_iff.trans List.mem_toFinset.symm
  cardinality := fun (b : List Nat) => (List.card_toFinset b).symm
  probed bs hne hsize := by
    simp only [oneContainer] at hsize ⊢
    cases hrun : arrayContainer.run bs with
    | error s =>
        rw [hrun] at hsize
        exact absurd (List.length_eq_zero_iff.mp hsize.symm) hne
    | ok r => exact ⟨r.1, rfl⟩

theorem nullBitmap_sound_repeats :
    ∃ r, NullBitmapReader.open oneContainer ((writerOf oneContainer [5, 9, 5]).finish 100) =
        some (.ok r) ∧
      r.docCount = 100 ∧ r.isNull 9 = true ∧ r.nullCount = 2 := by
  have hport : oneContainer.Portable (@List.toFinset Nat _)
      (writerOf oneContainer [5, 9, 5]).bitmap :=
    { fits := by decide, nonempty := by decide, size := by decide, reads := ⟨[5, 9], rfl, rfl⟩ }
  have hids : ∀ d ∈ [5, 9, 5], d < 2 ^ 32 := by simp
  obtain ⟨r, hopen, hdocs, hnull, hcount, -⟩ :=
    (nullBitmap_sound oneContainer_isSet hids (show 100 < 2 ^ 32 by omega) hport).1 []
  rw [List.append_nil] at hopen
  exact ⟨r, hopen, hdocs, (hnull 9 (by omega)).mpr (by decide), hcount⟩

end Snii.Format.NullBitmap
