import Snii.Format.PerIndexMeta

/-!
# Sections of a metadata block

`PerIndexMetaBuilder` and `PerIndexMetaReader::open` with extra sections.  Behind its header
a block is any number of frames; what the reader makes of it is told frame by frame
(`run_readFrames`), so sections of unknown types change nothing, and a block without the
statistics or without the section references is refused.
-/

namespace Snii.Format.PerIndexMeta

open Snii.Lib.ByteReader Snii.Common
open Snii.Encoding.ByteSource Snii.Encoding.SectionFramer Snii.Encoding.Crc32c

/-- A metadata block and extra sections, already framed. -/
structure PerIndexMetaBuilder extends IndexMeta where
  extraSections : List Bytes := []

def PerIndexMetaBuilder.finish (b : PerIndexMetaBuilder) : Bytes :=
  finishMeta b.toIndexMeta ++ b.extraSections.flatten

/-! ## Frames in a row -/

/-- The bytes of sections, one frame after the other. -/
inductive Frames : List (FramedSection × Bytes) → Bytes → Prop where
  | nil : Frames [] []
  | cons {sec : FramedSection} {frame rest : Bytes} {secs : List (FramedSection × Bytes)} :
      Frame sec frame → Frames secs rest → Frames ((sec, frame) :: secs) (frame ++ rest)

theorem Frames.append {secs secs' : List (FramedSection × Bytes)} {bs bs' : Bytes}
    (h : Frames secs bs) (h' : Frames secs' bs') : Frames (secs ++ secs') (bs ++ bs') := by
  induction h with
  | nil => exact h'
  | cons hframe _ ih =>
      rw [List.append_assoc]
      exact Frames.cons hframe ih

theorem frame_ne_nil {sec : FramedSection} {frame : Bytes} (h : Frame sec frame) :
    frame ≠ [] := by
  intro hnil
  have hread := reads_frame h []
  rw [hnil] at hread
  cases hread

theorem Frames.length_le {secs : List (FramedSection × Bytes)} {bs : Bytes} (h : Frames secs bs) :
    secs.length ≤ bs.length := by
  induction h with
  | nil => exact Nat.le_refl 0
  | cons hframe _ ih =>
      have := List.length_pos_iff.mpr (frame_ne_nil hframe)
      rw [List.length_cons, List.length_append]
      omega

/-- The frames into their slots, one after the other. -/
def dispatchAll : MetaSections → List (FramedSection × Bytes) → Result MetaSections
  | acc, [] => .ok acc
  | acc, (sec, frame) :: secs => do
      let acc' ← dispatchFrame acc sec frame
      dispatchAll acc' secs

/-- One round of the frame loop, on any frame. -/
theorem run_readFrames_frame {fuel : Nat} {sec : FramedSection} {frame : Bytes}
    (h : Frame sec frame) (acc : MetaSections) (rest : Bytes) :
    (readFrames (fuel + 1) acc).run (frame ++ rest) =
      dispatchFrame acc sec frame >>= fun acc' => (readFrames fuel acc').run rest := by
  have hne : (frame ++ rest).isEmpty = false := by
    simp [frame_ne_nil h]
  rw [readFrames, eof_run_bind, hne]
  simp only [Bool.false_eq_true, if_false]
  rw [(reads_frame h).consumed.run_bind]
  cases dispatchFrame acc sec frame <;> rfl

/-- **The frame loop** dispatches the frames of the block. -/
theorem run_readFrames {secs : List (FramedSection × Bytes)} {bs : Bytes} (h : Frames secs bs)
    {fuel : Nat} (hfuel : secs.length ≤ fuel) (acc : MetaSections) :
    (readFrames fuel acc).run bs = dispatchAll acc secs >>= fun acc' => .ok (acc', []) := by
  induction h generalizing fuel acc with
  | nil => exact readFrames_nil fuel acc
  | @cons sec frame rest secs hframe _ ih =>
      cases fuel with
      | zero => cases hfuel
      | succ fuel =>
          rw [run_readFrames_frame hframe, dispatchAll, bind_assoc]
          congr 1
          funext acc'
          exact ih (Nat.le_of_succ_le_succ hfuel) acc'

theorem prefixed_readSection : Prefixed readSection := by
  intro bs sec rest h
  obtain ⟨frame, hbs, hframe⟩ := frame_of_run h
  exact ⟨frame, hbs, reads_frame hframe⟩

/-- A loop that succeeds has met frames only. -/
theorem frames_of_run {fuel : Nat} {acc acc' : MetaSections} {bs rest : Bytes}
    (hfuel : bs.length ≤ fuel) (h : (readFrames fuel acc).run bs = .ok (acc', rest)) :
    ∃ secs, Frames secs bs ∧ dispatchAll acc secs = .ok acc' := by
  induction fuel generalizing acc bs with
  | zero =>
      have hnil : bs = [] := List.length_eq_zero_iff.mp (Nat.le_zero.mp hfuel)
      subst hnil
      cases h
      exact ⟨[], Frames.nil, rfl⟩
  | succ fuel ih =>
      rw [readFrames, eof_run_bind] at h
      by_cases hempty : bs.isEmpty = true
      · rw [if_pos hempty] at h
        cases h
        rw [List.isEmpty_iff.mp hempty]
        exact ⟨[], Frames.nil, rfl⟩
      · rw [if_neg hempty] at h
        obtain ⟨⟨sec, frame⟩, mid, hconsumed, hround⟩ := run_bind_eq_ok.mp h
        obtain ⟨next, mid', hdispatch, hrest⟩ := run_bind_eq_ok.mp hround
        obtain ⟨rfl, hreads⟩ := run_consumed prefixed_readSection hconsumed
        change Reads readSection frame sec at hreads
        obtain ⟨frame', hframe', hframe⟩ := frame_of_run (hreads [])
        rw [List.append_nil, List.append_nil] at hframe'
        subst hframe'
        have hpos := List.length_pos_iff.mpr (frame_ne_nil hframe)
        have hslot : dispatchFrame acc sec frame = .ok next ∧ mid' = mid := by
          change (dispatchFrame acc sec frame).map (fun x => (x, mid)) = _ at hdispatch
          cases hres : dispatchFrame acc sec frame with
          | error e =>
              rw [hres] at hdispatch
              cases hdispatch
          | ok acc'' =>
              rw [hres] at hdispatch
              cases hdispatch
              exact ⟨rfl, rfl⟩
        obtain ⟨hslot, rfl⟩ := hslot
        change (frame ++ mid').length ≤ fuel + 1 at hfuel
        rw [List.length_append] at hfuel
        obtain ⟨secs, hsecs, hall⟩ := ih (by omega) hrest
        exact ⟨(sec, frame) :: secs, Frames.cons hframe hsecs, by
          rw [dispatchAll, hslot, ok_bind, hall]⟩

/-! ## Slots -/

/-- The section types that the reader takes something from. -/
def knownTypes : List Nat :=
  [SectionType.statsBlock.code, SectionType.sectionRefs.code, SectionType.sampledTermIndex.code,
    SectionType.dictBlockDirectory.code]

/-- **Unknown sections** are skipped. -/
theorem dispatchFrame_unknown {sec : FramedSection} (h : sec.type ∉ knownTypes)
    (acc : MetaSections) (frame : Bytes) : dispatchFrame acc sec frame = .ok acc := by
  simp only [knownTypes, List.mem_cons, List.not_mem_nil, or_false, not_or] at h
  rw [dispatchFrame, if_neg h.1, if_neg h.2.1, if_neg h.2.2.1, if_neg h.2.2.2]

theorem dispatchAll_unknown {secs : List (FramedSection × Bytes)}
    (h : ∀ s ∈ secs, s.1.type ∉ knownTypes) (acc : MetaSections) :
    dispatchAll acc secs = .ok acc := by
  induction secs with
  | nil => rfl
  | cons s secs ih =>
      rw [dispatchAll, dispatchFrame_unknown (h s List.mem_cons_self), ok_bind]
      exact ih fun s' hs' => h s' (List.mem_cons_of_mem _ hs')

/-- A frame fills the slots of its own type only. -/
theorem dispatchFrame_slots {acc acc' : MetaSections} {sec : FramedSection} {frame : Bytes}
    (h : dispatchFrame acc sec frame = .ok acc') :
    (sec.type ≠ SectionType.statsBlock.code → acc'.stats = acc.stats) ∧
      (sec.type ≠ SectionType.sectionRefs.code → acc'.sectionRefs = acc.sectionRefs) := by
  rw [dispatchFrame] at h
  by_cases hstats : sec.type = SectionType.statsBlock.code
  · rw [if_pos hstats] at h
    obtain ⟨stats, -, hpure⟩ := bind_eq_ok h
    cases hpure
    exact ⟨fun hne => absurd hstats hne, fun _ => rfl⟩
  · rw [if_neg hstats] at h
    by_cases hrefs : sec.type = SectionType.sectionRefs.code
    · rw [if_pos hrefs] at h
      obtain ⟨refs, -, hpure⟩ := bind_eq_ok h
      cases hpure
      exact ⟨fun _ => rfl, fun hne => absurd hrefs hne⟩
    · rw [if_neg hrefs] at h
      split at h
      · cases h
        exact ⟨fun _ => rfl, fun _ => rfl⟩
      · split at h
        · cases h
          exact ⟨fun _ => rfl, fun _ => rfl⟩
        · cases h
          exact ⟨fun _ => rfl, fun _ => rfl⟩

/-- Slots that no frame fills stay as they were. -/
theorem dispatchAll_slots {secs : List (FramedSection × Bytes)} {acc acc' : MetaSections}
    (h : dispatchAll acc secs = .ok acc') :
    ((∀ s ∈ secs, s.1.type ≠ SectionType.statsBlock.code) → acc'.stats = acc.stats) ∧
      ((∀ s ∈ secs, s.1.type ≠ SectionType.sectionRefs.code) →
        acc'.sectionRefs = acc.sectionRefs) := by
  induction secs generalizing acc with
  | nil =>
      cases h
      exact ⟨fun _ => rfl, fun _ => rfl⟩
  | cons s secs ih =>
      obtain ⟨next, hnext, hrest⟩ := bind_eq_ok h
      have hslots := dispatchFrame_slots hnext
      have hlater := ih hrest
      refine ⟨fun hall => ?_, fun hall => ?_⟩
      · rw [hlater.1 fun s' hs' => hall s' (List.mem_cons_of_mem _ hs'),
          hslots.1 (hall s List.mem_cons_self)]
      · rw [hlater.2 fun s' hs' => hall s' (List.mem_cons_of_mem _ hs'),
          hslots.2 (hall s List.mem_cons_self)]

/-! ## Whole blocks -/

/-- What the builder is given: values of the format's widths, and sections that are framed
as their types ask; extra ones of types the reader does not know. -/
structure BuilderOk (b : PerIndexMetaBuilder) : Prop where
  indexId : b.indexId < 2 ^ 64
  suffix : b.indexSuffix.length ≤ kMaxSuffixLen
  flags : b.flags < 2 ^ 32
  stats : StatsOk b.stats
  refs : SectionRefsOk b.sectionRefs
  sampled : ∃ payload, Frame ⟨SectionType.sampledTermIndex.code, payload⟩ b.sampledTermIndex
  directory : ∃ payload,
    Frame ⟨SectionType.dictBlockDirectory.code, payload⟩ b.dictBlockDirectory
  extras : ∀ e ∈ b.extraSections, ∃ sec, Frame sec e ∧ sec.type ∉ knownTypes

/-- The block is a header and frames, one of the given type among them. -/
def HasFrame (type : Nat) (block : Bytes) : Prop :=
  ∃ fields rest secs, decodeHeader.run block = .ok (fields, rest) ∧ Frames secs rest ∧
    ∃ s ∈ secs, s.1.type = type

theorem frames_extras {extras : List Bytes}
    (h : ∀ e ∈ extras, ∃ sec, Frame sec e ∧ sec.type ∉ knownTypes) :
    ∃ secs, Frames secs extras.flatten ∧ ∀ s ∈ secs, s.1.type ∉ knownTypes := by
  induction extras with
  | nil => exact ⟨[], Frames.nil, by simp⟩
  | cons e extras ih =>
      obtain ⟨sec, hframe, hunknown⟩ := h e List.mem_cons_self
      obtain ⟨secs, hsecs, hall⟩ := ih fun e' he' => h e' (List.mem_cons_of_mem _ he')
      refine ⟨(sec, e) :: secs, Frames.cons hframe hsecs, ?_⟩
      exact List.forall_mem_cons.mpr ⟨hunknown, hall⟩

/-- **The builder's block opens** to what the builder was given. -/
theorem openMeta_builder {b : PerIndexMetaBuilder} (h : BuilderOk b) :
    openMeta b.finish = .ok b.toIndexMeta := by
  obtain ⟨sampled, hsampled⟩ := h.sampled
  obtain ⟨directory, hdirectory⟩ := h.directory
  obtain ⟨extras, hextras, hunknown⟩ := frames_extras h.extras
  have hstats : Frame ⟨SectionType.statsBlock.code, statsPayload b.stats⟩
      (encodeStatsBlock b.stats) :=
    frame_writeSection SectionType.statsBlock.code_lt
      (Nat.lt_of_le_of_lt (length_statsPayload _) (by decide))
  have hrefs : Frame ⟨SectionType.sectionRefs.code, sectionRefsPayload b.sectionRefs⟩
      (encodeSectionRefs b.sectionRefs) :=
    frame_writeSection SectionType.sectionRefs.code_lt
      (Nat.lt_of_le_of_lt (length_sectionRefsPayload _) (by decide))
  have hframes := Frames.cons hstats (Frames.cons hsampled (Frames.cons hdirectory
    (Frames.cons hrefs hextras)))
  have hstatsSlot : dispatchFrame {}
      ⟨SectionType.statsBlock.code, statsPayload b.stats⟩ (encodeStatsBlock b.stats) =
      .ok { stats := some b.stats } := by
    rw [dispatchFrame, if_pos rfl, decodeStatsBlock_encode h.stats, ok_bind]
  have hrefsSlot : ∀ acc : MetaSections, dispatchFrame acc
      ⟨SectionType.sectionRefs.code, sectionRefsPayload b.sectionRefs⟩
      (encodeSectionRefs b.sectionRefs) = .ok { acc with sectionRefs := some b.sectionRefs } := by
    intro acc
    have hother : SectionType.sectionRefs.code ≠ SectionType.statsBlock.code := by decide
    rw [dispatchFrame, if_neg hother, if_pos rfl, decodeSectionRefs_encode h.refs, ok_bind]
  have hsampledSlot : ∀ acc : MetaSections, dispatchFrame acc
      ⟨SectionType.sampledTermIndex.code, sampled⟩ b.sampledTermIndex =
      .ok { acc with sampledTermIndex := b.sampledTermIndex } := fun _ => rfl
  have hdirectorySlot : ∀ acc : MetaSections, dispatchFrame acc
      ⟨SectionType.dictBlockDirectory.code, directory⟩ b.dictBlockDirectory =
      .ok { acc with dictBlockDirectory := b.dictBlockDirectory } := fun _ => rfl
  have hblock : b.finish = encodeHeader b.toIndexMeta ++ (encodeStatsBlock b.stats ++
      (b.sampledTermIndex ++ (b.dictBlockDirectory ++ (encodeSectionRefs b.sectionRefs ++
        b.extraSections.flatten)))) := by
    rw [PerIndexMetaBuilder.finish, finishMeta]
    simp only [List.append_assoc]
  rw [openMeta, hblock, reads_header h.indexId h.suffix h.flags, ok_bind]
  simp only
  rw [run_readFrames hframes hframes.length_le, dispatchAll, hstatsSlot, ok_bind, dispatchAll,
    hsampledSlot, ok_bind, dispatchAll, hdirectorySlot, ok_bind, dispatchAll, hrefsSlot, ok_bind,
    dispatchAll_unknown hunknown, ok_bind, ok_bind]

/-- A block that opens holds a frame of each required type. -/
theorem hasFrame_of_open {block : Bytes} {m : IndexMeta} (h : openMeta block = .ok m) :
    HasFrame SectionType.statsBlock.code block ∧ HasFrame SectionType.sectionRefs.code block := by
  obtain ⟨⟨fields, rest⟩, hheader, hbody⟩ := bind_eq_ok h
  obtain ⟨⟨acc, rest'⟩, hframes, hsome⟩ := bind_eq_ok hbody
  obtain ⟨secs, hsecs, hall⟩ := frames_of_run (Nat.le_refl _) hframes
  have hslots := dispatchAll_slots hall
  simp only at hsome
  split at hsome
  · rename_i stats refs hstats hrefs
    constructor
    · by_contra hnone
      have hempty := hslots.1 fun s hs heq => hnone ⟨fields, rest, secs, hheader, hsecs, s, hs, heq⟩
      rw [hstats] at hempty
      cases hempty
    · by_contra hnone
      have hempty := hslots.2 fun s hs heq => hnone ⟨fields, rest, secs, hheader, hsecs, s, hs, heq⟩
      rw [hrefs] at hempty
      cases hempty
  · cases hsome

/-- **Metadata blocks.**  A block built with any extra sections of unknown types opens to the
builder's values and to the two framed sections as given, as it does without them; bytes
that lack the statistics or the section references do not open. -/
theorem perIndexMeta_roundTrip :
    (∀ b : PerIndexMetaBuilder, BuilderOk b → openMeta b.finish = .ok b.toIndexMeta ∧
      openMeta b.finish = openMeta { b with extraSections := [] }.finish) ∧
    ∀ block, ¬ HasFrame SectionType.statsBlock.code block ∨
      ¬ HasFrame SectionType.sectionRefs.code block → ∃ e, openMeta block = .error e := by
  constructor
  · intro b h
    have hplain : BuilderOk { b with extraSections := [] } :=
      ⟨h.indexId, h.suffix, h.flags, h.stats, h.refs, h.sampled, h.directory, by simp⟩
    exact ⟨openMeta_builder h, (openMeta_builder h).trans (openMeta_builder hplain).symm⟩
  · intro block hmissing
    cases hopen : openMeta block with
    | error e => exact ⟨e, rfl⟩
    | ok m =>
        have hboth := hasFrame_of_open hopen
        rcases hmissing with hno | hno
        · exact absurd hboth.1 hno
        · exact absurd hboth.2 hno

/-- Metadata of three documents, with a section of a type from the future. -/
def futureMeta : PerIndexMetaBuilder where
  indexId := 7
  indexSuffix := [116]
  flags := 3
  stats := { docCount := 3, indexedDocCount := 2, termCount := 5, sumTotalTermFreq := 9, nullCount := 1 }
  sectionRefs :=
    { dictRegion := ⟨40, 120⟩, postingRegion := ⟨160, 64⟩, norms := ⟨224, 3⟩
      nullBitmap := ⟨227, 18⟩, bsbf := ⟨245, 60⟩ }
  sampledTermIndex := writeSection SectionType.sampledTermIndex.code [1, 0, 1, 97]
  dictBlockDirectory := writeSection SectionType.dictBlockDirectory.code [1, 0, 120, 3]
  extraSections := [writeSection 200 [1, 2, 3]]

theorem perIndexMeta_roundTrip_future :
    openMeta futureMeta.finish = .ok futureMeta.toIndexMeta := by
  refine (perIndexMeta_roundTrip.1 futureMeta ⟨by decide, by decide, by decide, ?_, ?_, ?_, ?_, ?_⟩).1
  · exact ⟨by decide, by decide, by decide, by decide, by decide⟩
  · exact ⟨⟨by decide, by decide⟩, ⟨by decide, by decide⟩, ⟨by decide, by decide⟩,
      ⟨by decide, by decide⟩, ⟨by decide, by decide⟩⟩
  · exact ⟨[1, 0, 1, 97], frame_writeSection (by decide) (by decide)⟩
  · exact ⟨[1, 0, 120, 3], frame_writeSection (by decide) (by decide)⟩
  · intro e he
    rw [List.mem_singleton.mp he]
    exact ⟨⟨200, [1, 2, 3]⟩, frame_writeSection (by decide) (by decide), by decide⟩

end Snii.Format.PerIndexMeta
