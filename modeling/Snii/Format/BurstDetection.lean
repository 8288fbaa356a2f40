import Snii.Encoding.CrcBurst
import Snii.Format.ContainerEnds
import Snii.Format.DictBlockSafety
import Snii.Format.TailMeta

/-!
# Bursts are detected

Four decoders compare a CRC32C before they accept: a dictionary block, the tail meta
region and the two ends of a container.  Whatever one of them accepts ends in the
checksum of what stands before (the `sealed_of_...` theorems), so a change within four
consecutive bytes, the checksum's own bytes included, is refused with a status.
-/

namespace Snii.Format.BurstDetection

open Snii.Lib.ByteReader Snii.Common
open Snii.Encoding.ByteSource Snii.Encoding.Crc32c
open Snii.Format.ContainerEnds Snii.Format.Dict Snii.Format.DictBlock Snii.Format.TailMeta

/-- The second string is the first one with at most four consecutive bytes changed. -/
def Burst (data data' : Bytes) : Prop :=
  ∃ before x y after, data = before ++ x ++ after ∧ data' = before ++ y ++ after ∧
    x.length = y.length ∧ x.length ≤ 4 ∧ x ≠ y

/-- The call returns a status other than OK. -/
def Rejects {α : Type} (result : Result α) : Prop := ∃ s, result = .error s ∧ s ≠ .outOfBounds

theorem rejects_of {α : Type} {result : Result α} (hbounds : result ≠ .error .outOfBounds)
    (hfail : ∀ x, result ≠ .ok x) : Rejects result := by
  cases result with
  | error s => exact ⟨s, rfl, fun hs => hbounds (congrArg Except.error hs)⟩
  | ok x => exact absurd rfl (hfail x)

theorem Burst.not_sealed {data data' : Bytes} (h : Burst data data') (hsealed : Sealed data) :
    ¬ Sealed data' := by
  obtain ⟨before, x, y, after, rfl, rfl, hlen, hfour, hne⟩ := h
  intro hsealed'
  exact hne (sealed_burst hlen hfour hsealed hsealed')

/-- A checksum in the last four bytes. -/
theorem sealed_of_split {data : Bytes} {n : Nat} (hlen : data.length = n + 4)
    (hcrc : crc32c (data.take n) = leValue ((data.drop n).take 4)) : Sealed data := by
  have hfour : (data.drop n).length = 4 := by rw [List.length_drop, hlen, Nat.add_sub_cancel_left]
  refine ⟨data.take n, data.drop n, (List.take_append_drop n data).symm, hfour, ?_⟩
  rwa [List.take_of_length_le hfour.le] at hcrc

/-! ## What is accepted is sealed -/

theorem sealed_of_openBlock {block : Bytes} {tier : IndexTier} {hasPositions : Bool}
    {r : DictBlockReader} (h : openBlock block tier hasPositions = .ok r) : Sealed block := by
  rw [openBlock, verifyCrc] at h
  by_cases hshort : block.length < kFooterBytes + kNAnchorsBytes
  · rw [if_pos hshort] at h
    cases h
  · have hlen : block.length = block.length - kFooterBytes + 4 := by
      simp only [kFooterBytes, kNAnchorsBytes] at hshort ⊢
      omega
    rw [if_neg hshort, subslice_of_le (by omega), ok_bind, subslice_of_le (by omega), ok_bind] at h
    cases hfooter : getFixed32.run ((block.drop (block.length - kFooterBytes)).take
        kFooterBytes) with
    | error s =>
        rw [hfooter] at h
        cases h
    | ok stored =>
        rw [hfooter, ok_bind] at h
        by_cases hcrc : crc32c ((block.drop 0).take (block.length - kFooterBytes)) = stored.1
        · apply sealed_of_split hlen
          rw [List.drop_zero] at hcrc
          rw [hcrc, (run_getFixed hfooter).1, List.take_take]
          rfl
        · simp only [ne_eq, if_pos hcrc] at h
          cases h

theorem sealed_of_openHeader {region : Bytes} {header : TailMetaHeader}
    (h : openHeader region = .ok header) : Sealed region := by
  rw [openHeader] at h
  by_cases hshort : region.length < kHeaderSize + kRegionChecksumSize
  · rw [if_pos hshort] at h
    cases h
  · have hcovered : region.length - kRegionChecksumSize + kRegionChecksumSize = region.length :=
      Nat.sub_add_cancel (by omega)
    rw [if_neg hshort] at h
    simp only at h
    rw [subslice_of_le hcovered.le, ok_bind] at h
    cases hstored : getFixed32.run ((region.drop (region.length - kRegionChecksumSize)).take
        kRegionChecksumSize) with
    | error s =>
        rw [hstored] at h
        cases h
    | ok stored =>
        rw [hstored, ok_bind, subslice_of_le (by omega), ok_bind] at h
        by_cases hcrc : crc32c ((region.drop 0).take (region.length - kRegionChecksumSize)) =
            stored.1
        · apply sealed_of_split hcovered.symm
          rw [List.drop_zero] at hcrc
          rw [hcrc, (run_getFixed hstored).1, List.take_take]
          rfl
        · simp only [ne_eq, if_pos hcrc] at h
          cases h

/-- The pointer's reader passes over what the checksum covers, then compares it. -/
theorem finds_readTailPointer (covered : Bytes) :
    Finds (readTailPointer covered) (4 + (2 + (8 + (8 + (8 + (4 + (4 + (1 + 0))))))))
      fun _ bs => crc32c covered = leValue (bs.take 4) := by
  have hcheck : ∀ (tp : TailPointer) (stored : Nat) (bs : Bytes), stored = leValue (bs.take 4) →
      Yields (if stored ≠ crc32c covered then
          throw (.corruption "tail_pointer: tail_checksum mismatch") else pure tp : Source TailPointer)
        fun _ => crc32c covered = leValue (bs.take 4) := by
    intro tp stored bs hstored
    apply Yields.ite
    · intro hne
      exact Yields.throw _
    · intro heq
      exact Yields.pure ((not_not.mp heq).symm.trans hstored)
  refine skips_getFixed32.finds fun _ => Finds.ite (Finds.throw _) ?_
  refine skips_getFixed16.finds fun _ => skips_getFixed64.finds fun _ => ?_
  refine skips_getFixed64.finds fun _ => skips_getFixed64.finds fun _ => ?_
  refine skips_getFixed32.finds fun _ => skips_getFixed32.finds fun _ => ?_
  refine skips_getU8.finds fun _ => Finds.ite (Finds.throw _) ?_
  exact finds_getFixed32.bind (hcheck _)

theorem sealed_of_decodeTailPointer {data : Bytes} {tp : TailPointer}
    (h : decodeTailPointer data = .ok tp) : Sealed data := by
  rw [decodeTailPointer] at h
  by_cases hsize : data.length = kFixedSize
  · rw [if_neg (not_not_intro hsize), subslice_of_le (by rw [hsize]; decide), ok_bind,
      List.drop_zero] at h
    cases hrun : (readTailPointer (data.take kChecksumCoverage)).run data with
    | error s =>
        rw [hrun] at h
        cases h
    | ok r => exact sealed_of_split hsize (finds_readTailPointer _ _ _ _ hrun)
  · rw [if_pos hsize] at h
    cases h

/-- The last field of the header. -/
theorem finds_readFields : Finds readFields (4 + (4 + (4 + (4 + (1 + 0))))) fun fields bs =>
    fields.2.2.2.2.2 = leValue (bs.take 4) := by
  refine skips_getFixed32.finds fun _ => skips_getFixed32.finds fun _ => ?_
  refine skips_getFixed32.finds fun _ => skips_getFixed32.finds fun _ => ?_
  refine skips_getU8.finds fun _ => ?_
  exact finds_getFixed32.bind fun stored bs hstored => Yields.pure hstored

theorem sealed_of_decodeBootstrapHeader {data : Bytes} {header : BootstrapHeader}
    (h : decodeBootstrapHeader data = .ok header) : Sealed data := by
  rw [decodeBootstrapHeader] at h
  by_cases hsize : data.length = kBootstrapHeaderSize
  · rw [if_neg (not_not_intro hsize)] at h
    cases hrun : readFields.run data with
    | error s =>
        rw [hrun] at h
        cases h
    | ok r =>
        have hfound := finds_readFields _ _ _ hrun
        obtain ⟨⟨magic, versionPair, flags, headerLength, tailPointerSize, stored⟩, rest⟩ := r
        rw [hrun, ok_bind] at h
        simp only at h hfound
        by_cases hmagic : magic = kContainerMagic
        · rw [if_neg (not_not_intro hmagic), subslice_of_le (by rw [hsize]; decide), ok_bind,
            List.drop_zero] at h
          by_cases hcrc : crc32c (data.take (kBootstrapHeaderSize - 4)) = stored
          · exact sealed_of_split hsize (hcrc.trans hfound)
          · rw [if_pos hcrc] at h
            cases h
        · rw [if_pos hmagic] at h
          cases h
  · rw [if_pos hsize] at h
    cases h

/-! ## The two ends stay inside their bytes -/

theorem decodeTailPointer_ne_outOfBounds (data : Bytes) :
    decodeTailPointer data ≠ .error .outOfBounds := by
  rw [decodeTailPointer]
  by_cases hsize : data.length = kFixedSize
  · rw [if_neg (not_not_intro hsize), subslice_of_le (by rw [hsize]; decide), ok_bind]
    have hchecks : ∀ covered tp, Avoids (readTailChecks covered tp) .outOfBounds := fun _ _ =>
      avoids_getU8.bind fun _ => Avoids.ite (Avoids.throw (by simp)) (avoids_getFixed32.bind fun _ =>
        Avoids.ite (Avoids.throw (by simp)) (Avoids.pure _))
    have hread : ∀ covered, Avoids (readTailPointer covered) .outOfBounds := fun _ =>
      avoids_getFixed32.bind fun _ => Avoids.ite (Avoids.throw (by simp)) (avoids_getFixed16.bind
        fun _ => avoids_getFixed64.bind fun _ => avoids_getFixed64.bind fun _ =>
        avoids_getFixed64.bind fun _ => avoids_getFixed32.bind fun _ => avoids_getFixed32.bind
        fun _ => hchecks _ _)
    exact bind_ne_error (hread _ data) fun r _ => by simp
  · rw [if_pos hsize]
    simp

theorem decodeBootstrapHeader_ne_outOfBounds (data : Bytes) :
    decodeBootstrapHeader data ≠ .error .outOfBounds := by
  rw [decodeBootstrapHeader]
  by_cases hsize : data.length = kBootstrapHeaderSize
  · rw [if_neg (not_not_intro hsize)]
    have hread : Avoids readFields .outOfBounds :=
      avoids_getFixed32.bind fun _ => avoids_getFixed32.bind fun _ => avoids_getFixed32.bind
        fun _ => avoids_getFixed32.bind fun _ => avoids_getU8.bind fun _ =>
        avoids_getFixed32.bind fun _ => Avoids.pure _
    apply bind_ne_error (hread data)
    rintro ⟨⟨magic, versionPair, flags, headerLength, tailPointerSize, stored⟩, rest⟩ -
    rw [subslice_of_le (by rw [hsize]; decide)]
    simp only [ok_bind]
    repeat' split
    all_goals simp
  · rw [if_pos hsize]
    simp

/-! ## Detection -/

theorem rejects_open {region : Bytes} (h : ¬ Sealed region) :
    Rejects (TailMetaRegionReader.open region) := by
  cases hheader : openHeader region with
  | error s =>
      refine ⟨s, ?_, fun hs => openHeader_ne_outOfBounds region (by rw [hheader, hs])⟩
      rw [TailMetaRegionReader.open, hheader]
      rfl
  | ok header => exact absurd (sealed_of_openHeader hheader) h

theorem sealed_of_open {region : Bytes} {r : TailMetaRegionReader}
    (h : TailMetaRegionReader.open region = .ok r) : Sealed region := by
  cases hheader : openHeader region with
  | error s =>
      rw [TailMetaRegionReader.open, hheader] at h
      cases h
  | ok header => exact sealed_of_openHeader hheader

/-- **A short burst is always detected**: after a change of the same length within four
consecutive bytes of an accepted string, wherever they stand, the same call returns a
status other than OK. -/
theorem burst_detected {data data' : Bytes} (h : Burst data data') :
    (∀ tier hasPositions r, openBlock data tier hasPositions = .ok r →
      Rejects (openBlock data' tier hasPositions)) ∧
    (∀ r, TailMetaRegionReader.open data = .ok r → Rejects (TailMetaRegionReader.open data')) ∧
    (∀ tp, decodeTailPointer data = .ok tp → Rejects (decodeTailPointer data')) ∧
    (∀ header, decodeBootstrapHeader data = .ok header →
      Rejects (decodeBootstrapHeader data')) := by
  refine ⟨fun tier hasPositions r hr => ?_, fun r hr => ?_, fun tp htp => ?_, fun header hh => ?_⟩
  · have hbroken := h.not_sealed (sealed_of_openBlock hr)
    exact rejects_of (openBlock_spec data' tier hasPositions).1 fun r' hr' =>
      hbroken (sealed_of_openBlock hr')
  · exact rejects_open (h.not_sealed (sealed_of_open hr))
  · have hbroken := h.not_sealed (sealed_of_decodeTailPointer htp)
    exact rejects_of (decodeTailPointer_ne_outOfBounds data') fun tp' htp' =>
      hbroken (sealed_of_decodeTailPointer htp')
  · have hbroken := h.not_sealed (sealed_of_decodeBootstrapHeader hh)
    exact rejects_of (decodeBootstrapHeader_ne_outOfBounds data') fun header' hh' =>
      hbroken (sealed_of_decodeBootstrapHeader hh')

/-- A container's header with its flags and the length behind them changed. -/
theorem burst_detected_containerHeader :
    ∃ data', Burst containerHeader data' ∧ Rejects (decodeBootstrapHeader data') := by
  have hburst : Burst containerHeader
      (containerHeader.take 10 ++ [1, 0, 7, 0] ++ containerHeader.drop 14) :=
    ⟨containerHeader.take 10, (containerHeader.drop 10).take 4, [1, 0, 7, 0],
      containerHeader.drop 14, by decide +kernel, rfl, by decide +kernel, by decide +kernel,
      by decide +kernel⟩
  exact ⟨_, hburst, (burst_detected hburst).2.2.2 _ decode_containerHeader⟩

end Snii.Format.BurstDetection
