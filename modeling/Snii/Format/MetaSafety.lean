import Snii.Format.Bsbf
import Snii.Format.DictIndex
import Snii.Format.FrqPreludeSafety
import Snii.Format.NormsPod
import Snii.Format.PerIndexMeta
import Snii.Format.TailMeta
import Snii.Lib.Blame

/-!
# Metadata of arbitrary bytes

No parser of an index's metadata accesses a byte outside its input: neither the
per-index meta block with its sections, nor the sampled terms, the block directory, the
filter's header or the norms.  The meta region and the window prelude do only where a
declared sum wraps.
-/

namespace Snii.Format.MetaSafety

open Snii.Lib.ByteReader Snii.Lib.Blame Snii.Common Snii.Encoding.ByteSource
open Snii.Encoding.Varint Snii.Encoding.Crc32c Snii.Encoding.SectionFramer
open Snii.Format.Dict Snii.Format.DictIndex Snii.Format.PerIndexMeta

/-! ## The meta block -/

theorem decodeStatsBlock_ne_outOfBounds (framed : Bytes) :
    decodeStatsBlock framed ≠ .error .outOfBounds := by
  apply openSection_ne_outOfBounds (by simp)
  intro payload
  apply parseAll_ne_outOfBounds
  exact avoids_getVarint64.bind fun _ => avoids_getVarint64.bind fun _ =>
    avoids_getVarint64.bind fun _ => avoids_getVarint64.bind fun _ =>
    avoids_getVarint64.bind fun _ => Avoids.pure _

theorem decodeSectionRefs_ne_outOfBounds (payload : Bytes) :
    decodeSectionRefs payload ≠ .error .outOfBounds := by
  have hregion : Avoids decodeRegion .outOfBounds :=
    avoids_getVarint64.bind fun _ => avoids_getVarint64.bind fun _ => Avoids.pure _
  apply parseAll_ne_outOfBounds
  exact hregion.bind fun _ => hregion.bind fun _ => hregion.bind fun _ => hregion.bind fun _ =>
    hregion.bind fun _ => Avoids.pure _

theorem avoids_decodeHeader : Avoids decodeHeader .outOfBounds := by
  have hfields : Avoids readHeaderFields .outOfBounds := by
    apply avoids_getFixed16.bind
    intro version
    apply Avoids.ite (Avoids.throw (by simp))
    apply avoids_getVarint64.bind
    intro indexId
    apply avoids_getVarint32.bind
    intro suffixLen
    apply avoids_remaining.bind
    intro left
    apply Avoids.ite (Avoids.throw (by simp))
    exact (avoids_getBytes _).bind fun _ => avoids_getFixed32.bind fun _ => Avoids.pure _
  exact hfields.consumed.bind fun _ => avoids_getFixed32.bind fun _ =>
    Avoids.ite (Avoids.throw (by simp)) (Avoids.pure _)

theorem dispatchFrame_ne_outOfBounds (acc : MetaSections) (sec : FramedSection) (frame : Bytes) :
    dispatchFrame acc sec frame ≠ .error .outOfBounds := by
  rw [dispatchFrame]
  split
  · exact bind_ne_error (decodeStatsBlock_ne_outOfBounds frame) fun stats _ => by simp
  · split
    · exact bind_ne_error (decodeSectionRefs_ne_outOfBounds _) fun refs _ => by simp
    · repeat' split
      all_goals simp

theorem avoids_eof : Avoids eof .outOfBounds := by
  intro bs h
  cases h

theorem avoids_readFrames (fuel : Nat) (acc : MetaSections) :
    Avoids (readFrames fuel acc) .outOfBounds := by
  induction fuel generalizing acc with
  | zero => exact Avoids.pure acc
  | succ fuel ih =>
      apply avoids_eof.bind
      intro done
      apply Avoids.ite (Avoids.pure acc)
      apply avoids_readSection.consumed.bind
      intro frame
      exact (Avoids.ofResult (dispatchFrame_ne_outOfBounds acc frame.1 frame.2)).bind ih

/-- **A meta block** is parsed inside its bytes. -/
theorem openMeta_ne_outOfBounds (block : Bytes) : openMeta block ≠ .error .outOfBounds := by
  apply bind_ne_error (avoids_decodeHeader block)
  intro header _
  apply bind_ne_error (avoids_readFrames _ {} header.2)
  intro sections _
  simp only
  split <;> simp

/-! ## Its sections -/

theorem avoids_readSamples (n : Nat) (prev : Bytes) : Avoids (readSamples n prev) .outOfBounds := by
  induction n generalizing prev with
  | zero => exact Avoids.pure _
  | succ n ih =>
      have hsample : Avoids (readSample prev) .outOfBounds :=
        avoids_getVarint32.bind fun _ => avoids_getVarint32.bind fun _ =>
          Avoids.ite (Avoids.throw (by simp)) ((avoids_getBytes _).bind fun _ => Avoids.pure _)
      exact hsample.bind fun term => (ih term).bind fun _ => Avoids.pure _

theorem openSampledTermIndex_ne_outOfBounds (framed : Bytes) :
    openSampledTermIndex framed ≠ .error .outOfBounds := by
  have hsample : ∀ prev, Avoids (readSample prev) .outOfBounds := fun prev =>
    avoids_getVarint32.bind fun _ => avoids_getVarint32.bind fun _ =>
      Avoids.ite (Avoids.throw (by simp)) ((avoids_getBytes _).bind fun _ => Avoids.pure _)
  have hnone : Avoids noSampledTerms .outOfBounds :=
    avoids_eof.bind fun _ => Avoids.ite (Avoids.throw (by simp)) (Avoids.pure _)
  have hterms : ∀ n, Avoids (readSampledTerms n) .outOfBounds := fun n =>
    (hsample []).bind fun _ => (hsample []).bind fun _ => (avoids_readSamples n []).bind fun _ =>
      avoids_eof.bind fun _ => Avoids.ite (Avoids.throw (by simp))
        (Avoids.ite (Avoids.throw (by simp)) (Avoids.pure _))
  have hpayload : Avoids readSampledPayload .outOfBounds :=
    avoids_getVarint32.bind fun n => Avoids.ite hnone (hterms n)
  apply openSection_ne_outOfBounds (by simp)
  exact fun payload => bind_ne_error (hpayload payload) fun r _ => by simp

theorem openDictBlockDirectory_ne_outOfBounds (framed : Bytes) :
    openDictBlockDirectory framed ≠ .error .outOfBounds := by
  have huncomp : ∀ flags, Avoids (readUncompLen flags) .outOfBounds := fun flags =>
    Avoids.ite avoids_getVarint64 (Avoids.pure 0)
  have href : Avoids decodeRef .outOfBounds :=
    avoids_getVarint64.bind fun _ => avoids_getVarint64.bind fun _ => avoids_getVarint32.bind
      fun _ => avoids_getU8.bind fun flags => avoids_getFixed32.bind fun _ =>
      (huncomp flags).bind fun _ => Avoids.pure _
  apply openSection_ne_outOfBounds (by simp)
  intro payload
  apply parseAll_ne_outOfBounds
  exact avoids_getVarint32.bind fun n => avoids_remaining.bind fun _ =>
    Avoids.ite (Avoids.throw (by simp)) (href.readN n)

theorem openNormsPod_ne_outOfBounds (framed : Bytes) :
    NormsPod.openNormsPod framed ≠ .error .outOfBounds := by
  apply bind_ne_error (avoids_readSection framed)
  intro sec _
  apply bind_ne_error (avoids_getVarint64 _)
  intro count _
  simp only
  repeat' split
  all_goals simp

/-- **A filter's header** is parsed inside its bytes, and its blocks fill the bits that
it declares. -/
theorem parseBsbfHeader_safe (h : Bytes) (sectionBase : Nat) :
    Bsbf.parseBsbfHeader h sectionBase ≠ .error .outOfBounds ∧
      ∀ header, Bsbf.parseBsbfHeader h sectionBase = .ok header →
        header.numBlocks = header.numBytes / Bsbf.kBsbfBytesPerBlock ∧ 0 < header.numBlocks := by
  rw [Bsbf.parseBsbfHeader]
  constructor
  · simp only
    repeat' split
    all_goals simp
  · intro header hheader
    iterate 6
      split at hheader
      · cases hheader
    simp only at hheader
    split at hheader
    · cases hheader
    · rename_i hrange
      split at hheader
      · cases hheader
      · rename_i hblocks
        cases hheader
        have hmin : 32 ≤ Bsbf.word32 h 8 := by
          by_contra hsmall
          exact hrange (.inl (Nat.not_le.mp hsmall))
        refine ⟨not_not.mp hblocks, ?_⟩
        rw [not_not.mp hblocks]
        exact Nat.div_pos hmin (by decide)

/-! ## Sums that wrap -/

/-- **A meta region** is left only where a declared sum wraps. -/
theorem region_blames {region : Bytes} (hsize : region.length < 2 ^ 64) :
    Blames .outOfBounds (¬ TailMeta.SumsFit region) (TailMeta.TailMetaRegionReader.open region) ∧
      ∀ r, TailMeta.TailMetaRegionReader.open region = .ok r → ∀ indexId suffix,
        Blames .outOfBounds (¬ TailMeta.SumsFit region) (r.find indexId suffix) := by
  constructor
  · refine ⟨fun hout hfits => ?_⟩
    apply bind_ne_error (TailMeta.openHeader_ne_outOfBounds region) _ hout
    intro h hheader
    exact (TailMeta.openEntries_ne_iff hsize h).mpr fun hoff => (hfits h hheader hoff).1
  · intro r hr indexId suffix
    refine ⟨fun hout hfits => ?_⟩
    obtain ⟨h, hheader, hentries⟩ := bind_eq_ok hr
    obtain ⟨hoff, hend, hdir, hcount, hregion⟩ := TailMeta.openEntries_ok hentries
    apply (TailMeta.find_inside_iff (hregion ▸ hsize) indexId suffix).mpr _ hout
    rw [hregion]
    exact (hfits h hheader hoff).2 r.dir hdir hend hcount indexId suffix

/-- **A window prelude** is left only where a declared sum wraps. -/
theorem prelude_blames {prelude : Bytes} (hsize : prelude.length < 2 ^ 64) :
    Blames .outOfBounds (¬ FrqPrelude.SumsFit prelude)
      (FrqPrelude.FrqPreludeReader.open prelude) := by
  refine ⟨fun hout hfits => ?_⟩
  cases hrun : FrqPrelude.parseHeader.run prelude with
  | error e =>
      rw [FrqPrelude.FrqPreludeReader.open, hrun] at hout
      apply FrqPrelude.avoids_parseHeader prelude
      rw [hrun]
      exact congrArg Except.error (Except.error.inj hout)
  | ok r =>
      have hlen := FrqPrelude.yields_parseHeader prelude r.1 r.2 hrun
      obtain ⟨hfirst, hsecond⟩ := hfits r.1 r.2 hrun
      rw [FrqPrelude.open_run hrun] at hout
      apply bind_ne_error ((FrqPrelude.verifyCoveredCrc_ne_iff hsize r.1.sbdirLen).mpr hfirst) _ hout
      intro _ hok
      exact (FrqPrelude.openDirectory_ne_iff hsize hlen
        (FrqPrelude.verifyCoveredCrc_ok hok)).mpr (hsecond hok)

end Snii.Format.MetaSafety
